import Lox.Proofs.Copies.Running
import Lox.Proofs.Sessions.Numbers

/-!
  Requests that leave no trace.

  To show the tokens or the program of a source, and to reject a submission, changes nothing of a session
  but which numbers are given out next, and perhaps what is recorded for numbers that no later tree has.
  That this makes no difference afterwards is not said by comparing two sessions field by field, since their
  numbers differ for ever; it needs a relation that later submissions keep.

  1. **Answers** (`outcome_copies`).  Submissions that are read as copies of each other, on machines that are
     alike, are answered alike.  This is where the theory of copies is used once for matching and once for
     running; the cases are those of the submission: unread, unmatched, run.
  2. **The same source** (`read_copies`).  A source is read as a copy of itself from another number on.
  3. **The store** (`Session.History.store_like`).  A session's functions are made of trees with numbers that
     it has given out, so a session is like itself with respect to these numbers.
  4. **Two sessions** (`Session.Raised`).  They are the same, but for the numbers from a bound on, which are
     higher in the second.  One submission keeps this (`Raised.run`), so any list of them does
     (`Raised.answers`).

  A request of which nothing is executed leads to a session that is raised by the numbers it has used up
  (`Session.raised_of_unexecuted`), and `unexecuted_leaves_no_trace` follows.
-/

namespace Lox

open Scope

/-! ## Answers -/

/-- The submissions ended in the same way. -/
inductive Verdict.Like (K : Likeness) : Verdict → Verdict → Prop where
  | finished {value value'} : Option.Rel (Value.Like K) value value' →
    Like K (.finished value) (.finished value')
  | rejected (faults : Nat) : Like K (.rejected faults) (.rejected faults)
  | aborted {e e'} : e.Like K e' → Like K (.aborted e) (.aborted e')

/-- The answers are alike, and so are the machines behind them. -/
structure Answered.Like (K : Likeness) (a a' : Answered Verdict) : Prop where
  result : a.result.Like K a'.result
  diagnostics : List.Forall₂ (Diagnostic.Like K) a.diagnostics a'.diagnostics
  machine : a.session.machine.Like K a'.session.machine

/-- What is seen of the answers is the same: how the submission ended, with values that show the same,
    what is reported, and what is left of the host. -/
structure Answered.Same (K : Likeness) (a a' : Answered Verdict) : Prop where
  result : a.result.Like K a'.result
  shown : a'.result.outcome = a.result.outcome
  diagnostics : a'.diagnostics = a.diagnostics
  host : a'.session.machine.host = a.session.machine.host

section Answers

variable {K : Likeness} {k : Nat}

/-- Lists that go together are empty together. -/
theorem forall₂_nil_iff {α β : Type} {R : α → β → Prop} {xs : List α} {ys : List β}
    (h : List.Forall₂ R xs ys) : ys = [] ↔ xs = [] := by
  cases h <;> simp

/-- Machines that are alike stay so when the same distances are recorded on both. -/
theorem Machine.Like.learn {m m' : Machine} (h : m.Like K m') {found found' : Resolution}
    (hfound : ∀ i i', K.number i i' → found'[i']? = found[i]?) :
    (m.learn found).Like K (m'.learn found') := by
  refine ⟨h.store, h.env, h.host, fun i i' hi => ?_⟩
  have hlearn := getElem?_learn m.resolution found i
  have hlearn' := getElem?_learn m'.resolution found' i'
  rw [hfound i i' hi, h.resolution i i' hi] at hlearn'
  exact hlearn'.trans hlearn.symm

/-- **Submissions that are read as copies are answered alike**, on machines that are alike. -/
theorem outcome_copies {t t' : Turn} (hfuel : t'.fuel = t.fuel)
    (hmachine : t.session.machine.Like K t'.session.machine)
    (hparsed : Grammar.ParsedCopy K k t.parsed t'.parsed) :
    Option.Rel (Answered.Like K) t.outcome? t'.outcome? := by
  have hresolved : ResolvedCopy K t.resolved t'.resolved := resolve_copies hparsed.program
  have hlearnt : t.machine.Like K t'.machine := hmachine.learn hresolved.resolution
  have hread := forall₂_nil_iff hparsed.diagnostics
  have hmatched := forall₂_nil_iff hresolved.diagnostics
  by_cases hr : t.parsed.diagnostics = []
  · by_cases hm : t.resolved.diagnostics = []
    · -- Both run with the same fuel, so they run out of it together.
      have hsuffices : Eval.Suffices False t.fuel t.fuel := .inl rfl
      have hrun := Eval.runAll_copies hsuffices hparsed.program .none t.machine t'.machine hlearnt
      rw [Turn.outcome_accepted ⟨hr, hm⟩, Turn.outcome_accepted ⟨hread.mpr hr, hmatched.mpr hm⟩, hfuel]
      generalize Eval.runAll t.fuel t.parsed.program none t.machine = ending at hrun ⊢
      generalize Eval.runAll t.fuel t'.parsed.program none t'.machine = ending' at hrun ⊢
      cases hrun with
      | done hv hm' => exact .some ⟨.finished hv, .nil, hm'⟩
      | failed he hm' =>
        exact .some ⟨.aborted he, .cons (.runtime he) .nil, hm'.store, rfl, hm'.host, hm'.resolution⟩
      | exhausted => exact .none
      | short h => exact h.elim
    · rw [Turn.outcome_unmatched hr hm, Turn.outcome_unmatched (hread.mpr hr) (hm ∘ hmatched.mp)]
      refine .some ⟨?_, hresolved.diagnostics, hlearnt⟩
      rw [Session.reject, Session.reject, hresolved.diagnostics.length_eq]
      exact .rejected _
  · rw [Turn.outcome_unread hr, Turn.outcome_unread (hr ∘ hread.mp)]
    refine .some ⟨?_, hparsed.diagnostics, hmachine⟩
    rw [Session.reject, Session.reject, hparsed.diagnostics.length_eq]
    exact .rejected _

/-- With the same tokens answers that are alike are seen as the same. -/
theorem Answered.Like.same {a a' : Answered Verdict} (h : a.Like K a')
    (ht : ∀ t t', K.token t t' → t' = t) : a.Same K a' := by
  refine ⟨h.result, ?_, diagnostics_eq h.diagnostics ht, h.machine.host⟩
  have hresult := h.result
  generalize a.result = verdict, a'.result = verdict' at hresult
  cases hresult with
  | finished hv =>
    cases hv with
    | none => rfl
    | some hv => exact congrArg (fun text => Lexical.Outcome.finished (some text)) hv.printed_eq
  | rejected faults => rfl
  | aborted he => rw [he.eq ht]

end Answers

/-! ## Reading -/

/-- A diagnostic is like itself if tokens stand for themselves. -/
theorem Diagnostic.Like.refl {K : Likeness} (hsame : ∀ t, K.token t t) (d : Diagnostic) : d.Like K d := by
  cases d with
  | lexical line fault => exact .lexical
  | syntactic t fault => exact .syntactic (hsame t)
  | scoping t fault => exact .scoping (hsame t)
  | runtime e => exact .runtime ⟨hsame e.token, rfl⟩

/-- One source is read in the same way in sessions that have got to other numbers. -/
theorem read_copies {K : Likeness} {k : Nat} (hsame : ∀ t, K.token t t) (source : String)
    {s s' : Session} (hinteractive : s'.interactive = s.interactive) (hnextId : s'.nextId = s.nextId + k)
    (hup : ∀ i, s.nextId ≤ i → K.number i (i + k)) :
    Grammar.ParsedCopy K k (s.read source) (s'.read source) := by
  have htokens : List.Forall₂ K.token (tokensOf (items source)) (tokensOf (items source)) :=
    List.forall₂_same.mpr fun t _ => hsame t
  have hparsed := Grammar.parse_copies htokens s.interactive (hsame _) hup
  rw [Session.read, Session.read, hinteractive, hnextId]
  refine ⟨hparsed.program, ?_, hparsed.nextId⟩
  exact List.rel_append (List.forall₂_same.mpr fun d _ => .refl hsame d) hparsed.diagnostics

/-- A program is a copy of itself, with numbers that have been given out behind it. -/
theorem Turn.reads_itself (t : Turn) : Grammar.ParsedCopy (.below t.parsed.nextId) 0 t.parsed t.parsed := by
  have hcopy : Grammar.ParsedCopy (.raised 0 0) 0 t.parsed t.parsed :=
    read_copies (fun _ => rfl) t.source rfl rfl fun _ _ => rfl
  have hbounds := t.numbered.bounds
  refine ⟨hcopy.program.imp (fun i hi i' hii => ⟨(hbounds i hi).2, ?_⟩) fun _ _ => id, ?_, rfl⟩
  · exact hii
  · exact List.forall₂_same.mpr fun d _ => .refl (fun _ => rfl) d

/-! ## Sessions that hold nothing from outside -/

/-- Behind a submission the functions are made of trees of the session again. -/
theorem Turn.store_like {t : Turn} {answer : Answered Verdict} (h : t.outcome? = some answer)
    (hstore : t.session.machine.store.Like (.below t.session.nextId) t.session.machine.store) :
    answer.session.machine.store.Like (.below answer.session.nextId) answer.session.machine.store := by
  have hmachine : t.session.machine.Like (.below t.parsed.nextId) t.session.machine :=
    ⟨hstore.mono (Likeness.below_le t.numbered.le), rfl, rfl, fun i i' hi => hi.2 ▸ rfl⟩
  have hanswers := outcome_copies rfl hmachine t.reads_itself
  rw [h] at hanswers
  rw [(leaves h).2.1]
  cases hanswers with
  | some hlike => exact hlike.machine.store

/-- The functions of the session are made of trees of the session. -/
theorem Session.History.store_like {interactive : Bool} {host : Host} {dealings : List Dealing}
    {s : Session} (h : (Session.start interactive host).History dealings s) :
    s.machine.store.Like (.below s.nextId) s.machine.store := by
  induction h with
  | start => exact initial_like
  | @deal d dealings s _ hserve ih =>
    -- A submission is compared with itself: what its run leaves is like what its run leaves.
    obtain ⟨before, request⟩ := d
    cases request with
    | tokenize source | parse source | clearFlags =>
      have hle := (numbered_of_serve hserve).le
      cases hserve
      exact ih.mono (Likeness.below_le hle)
    | run fuel source =>
      obtain ⟨answer, hanswer, rfl⟩ := Option.map_eq_some_iff.mp hserve
      exact Turn.store_like (t := ⟨before, fuel, source⟩) hanswer ih

/-! ## Sessions that differ in numbers -/

/-- The sessions are the same, but for the numbers from a bound on, which are higher in the second. -/
structure Session.Raised (bound k : Nat) (s s' : Session) : Prop where
  interactive : s'.interactive = s.interactive
  nextId : s'.nextId = s.nextId + k
  above : bound ≤ s.nextId
  machine : s.machine.Like (.raised bound k) s'.machine

namespace Session

/-- Runs submissions, each with its fuel, one after the other.  Gives all answers. -/
def answers : List (Nat × String) → Session → Option (List (Answered Verdict))
  | [], _ => some []
  | (fuel, source) :: rest, s => do
    let answer ← s.run fuel source
    let others ← answer.session.answers rest
    some (answer :: others)

variable {bound k : Nat} {s s' : Session}

/-- A submission is answered in the same way, and the sessions differ in numbers only again. -/
theorem Raised.run (h : s.Raised bound k s') (fuel : Nat) (source : String) :
    Option.Rel (fun a a' => a.Same (.raised bound k) a' ∧ a.session.Raised bound k a'.session)
      (s.run fuel source) (s'.run fuel source) := by
  -- Numbers that are given out now are above the bound, so they are raised as well.
  have hup : ∀ i, s.nextId ≤ i → (Likeness.raised bound k).number i (i + k) := fun i hi =>
    (if_neg (Nat.not_lt.mpr (Nat.le_trans h.above hi))).symm
  have hparsed := read_copies (fun _ => rfl) source h.interactive h.nextId hup
  have hanswers : Option.Rel (Answered.Like (.raised bound k)) (Turn.outcome? ⟨s, fuel, source⟩)
      (Turn.outcome? ⟨s', fuel, source⟩) := outcome_copies rfl h.machine hparsed
  have hleaves := @Turn.leaves ⟨s, fuel, source⟩
  have hleaves' := @Turn.leaves ⟨s', fuel, source⟩
  show Option.Rel _ (Turn.outcome? ⟨s, fuel, source⟩) (Turn.outcome? ⟨s', fuel, source⟩)
  generalize Turn.outcome? ⟨s, fuel, source⟩ = answer at hanswers hleaves ⊢
  generalize Turn.outcome? ⟨s', fuel, source⟩ = answer' at hanswers hleaves' ⊢
  cases hanswers with
  | none => exact .none
  | @some a a' hlike =>
    obtain ⟨hinteractive, hnextId, -⟩ := hleaves rfl
    obtain ⟨hinteractive', hnextId', -⟩ := hleaves' rfl
    refine .some ⟨hlike.same fun _ _ => id, ?_, ?_, ?_, hlike.machine⟩
    · rw [hinteractive, hinteractive', h.interactive]
    · rw [hnextId, hnextId']
      exact hparsed.nextId
    · rw [hnextId]
      exact Nat.le_trans h.above (Turn.numbered ⟨s, fuel, source⟩).le

/-- So it is with any number of submissions. -/
theorem Raised.answers (h : s.Raised bound k s') (submissions : List (Nat × String)) :
    Option.Rel (List.Forall₂ (Answered.Same (.raised bound k))) (s.answers submissions)
      (s'.answers submissions) := by
  induction submissions generalizing s s' with
  | nil => exact .some .nil
  | cons submission rest ih =>
    obtain ⟨fuel, source⟩ := submission
    refine related_bind (h.run fuel source) fun a a' hrun => ?_
    refine related_bind (ih hrun.2) fun others others' hothers => ?_
    exact .some (.cons hrun.1 hothers)

end Session

/-! ## Requests of which nothing runs -/

/-- Nothing of the request is executed: a source is only shown, or a submission is rejected. -/
def Request.Unexecuted (s : Session) : Request → Prop
  | .tokenize _ | .parse _ | .clearFlags => True
  | .run fuel source => ∃ answer faults, s.run fuel source = some answer ∧ answer.result = .rejected faults

/-- A submission that is rejected changes neither variables nor the host. -/
theorem Turn.rejected {t : Turn} {answer : Answered Verdict} {faults : Nat} (h : t.outcome? = some answer)
    (hrejected : answer.result = .rejected faults) :
    answer.session.machine.store = t.session.machine.store ∧
    answer.session.machine.env = t.session.machine.env ∧
    answer.session.machine.host = t.session.machine.host := by
  cases ends_of_outcome h with
  | unread _ | unmatched _ _ => exact ⟨rfl, rfl, rfl⟩
  | done _ _ | failed _ _ => cases hrejected

/-- The session behind such a request differs in numbers only. -/
theorem Session.raised_of_unexecuted {s s' : Session} {request : Request} (hfresh : s.Fresh)
    (hstore : s.machine.store.Like (.below s.nextId) s.machine.store)
    (hrequest : request.Unexecuted s) (hserve : s.serve request = some s') :
    s.Raised s.nextId (s'.nextId - s.nextId) s' := by
  have hle : s.nextId ≤ s'.nextId := (numbered_of_serve hserve).le
  have hsame : s'.interactive = s.interactive ∧ s'.machine.store = s.machine.store ∧
      s'.machine.env = s.machine.env ∧ s'.machine.host = s.machine.host := by
    cases request with
    | tokenize source | parse source | clearFlags =>
      cases hserve
      exact ⟨rfl, rfl, rfl, rfl⟩
    | run fuel source =>
      obtain ⟨answer, faults, hanswer, hrejected⟩ := hrequest
      rw [Session.serve, hanswer] at hserve
      cases hserve
      have hrun : Turn.outcome? ⟨s, fuel, source⟩ = some answer := hanswer
      exact ⟨(Turn.leaves hrun).1, Turn.rejected hrun hrejected⟩
  obtain ⟨hinteractive, hsame, henv, hhost⟩ := hsame
  refine ⟨hinteractive, by omega, Nat.le_refl _, ?_, henv, hhost, ?_⟩
  · rw [hsame]
    exact hstore.mono (Likeness.below_le_raised _ _)
  · rintro i i' rfl
    split
    · exact (onward_of_serve hserve).kept i ‹_›
    · -- No tree has got the number on either side.
      rw [hfresh.serve hserve _ (by omega), hfresh i (by omega)]

/-- **Requests of which nothing runs leave no trace.**  However a session came about: after a source has
    only been shown, or has been rejected, and the flags have been cleared, all further submissions end as
    they would have ended without it, each with the same value shown or the same error, the same
    diagnostics and the same output, and each leaves the same input and has asked the clock as often. -/
theorem unexecuted_leaves_no_trace {interactive : Bool} {host : Host} {dealings : List Dealing}
    {s s' : Session} (h : (Session.start interactive host).History dealings s) {request : Request}
    (hrequest : request.Unexecuted s) (hserve : s.serve request = some s')
    (submissions : List (Nat × String)) :
    Option.Rel (List.Forall₂ (Answered.Same (.raised s.nextId (s'.nextId - s.nextId))))
      (s.answers submissions) (s'.clearFlags.answers submissions) := by
  have hraised := Session.raised_of_unexecuted (h.fresh fun _ _ => rfl) h.store_like hrequest hserve
  have hcleared : s.Raised s.nextId (s'.nextId - s.nextId) s'.clearFlags :=
    ⟨hraised.interactive, hraised.nextId, hraised.above, hraised.machine⟩
  exact hcleared.answers submissions

/-! ## A submission with a fault -/

/-- The session behind a submission whose names have faults. -/
def Turn.unmatched (t : Turn) : Session :=
  ({ t.behindReading with machine := t.machine }.reject t.resolved.diagnostics).session

/-- A submission whose names have faults is one of which nothing runs. -/
theorem Turn.serve_unmatched {t : Turn} (h : t.parsed.diagnostics = [])
    (h' : t.resolved.diagnostics.isEmpty = false) :
    Request.Unexecuted t.session (.run t.fuel t.source) ∧
    t.session.serve (.run t.fuel t.source) = some t.unmatched := by
  have houtcome := Turn.outcome_unmatched h (List.isEmpty_eq_false_iff.mp h')
  exact ⟨⟨_, _, houtcome, rfl⟩, congrArg (Option.map Answered.session) houtcome⟩

namespace Rejected

/-- A variable is used, and another in its own initializer. -/
def turn : Turn := ⟨.start false ⟨[], #[], .whole, fun _ => 0, 0⟩, 9, "\x7b var a; a; var b = b; \x7d"⟩

/-- It is submitted to a new session. -/
theorem history : (Session.start false ⟨[], #[], .whole, fun _ => 0, 0⟩).History [] turn.session := .start

/-- It is rejected for its names. -/
theorem served :
    Request.Unexecuted turn.session (.run turn.fuel turn.source) ∧
    turn.session.serve (.run turn.fuel turn.source) = some turn.unmatched :=
  Turn.serve_unmatched (by cbv) (by cbv)

end Rejected

open Rejected in
/-- The distance of the variable stays recorded, but makes no difference. -/
theorem unexecuted_leaves_no_trace_rejected :
    Request.Unexecuted turn.session (.run turn.fuel turn.source) ∧
    turn.session.serve (.run turn.fuel turn.source) = some turn.unmatched ∧
    turn.unmatched.nextId = 2 ∧ turn.unmatched.machine.resolution[0]? = some 0 ∧
    Option.Rel (List.Forall₂ (Answered.Same
        (.raised turn.session.nextId (turn.unmatched.nextId - turn.session.nextId))))
      (turn.session.answers [(9, "var c;"), (9, "c;")])
      (turn.unmatched.clearFlags.answers [(9, "var c;"), (9, "c;")]) :=
  ⟨served.1, served.2, by cbv, by cbv, unexecuted_leaves_no_trace history served.1 served.2 _⟩

end Lox
