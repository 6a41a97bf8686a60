import Mathlib
import Lox.Proofs.Copies.Matching
import Lox.Proofs.Copies.Numbering
import Lox.Proofs.Copies.Reading
import Lox.Proofs.Lexical.Dealings
import Lox.Proofs.Runs.Forward

/-!
  The numbers of occurrences in a session.

  The resolver does not write the distance of a name into the tree.  It records it under the number of the
  occurrence, in a table that all submissions of a session share, and closures of an earlier submission look
  theirs up while a later one runs.  So everything depends on numbers never being given out twice.

  1. **One program** (`Turn.numbered`, `Turn.found`).  The occurrences of a program have the numbers from the
     one that reading starts with up to the one where it stops, each once; and distances are found for these
     only.  What is recorded for any other is left alone (`Turn.recorded_outside`).
  2. **One request** (`Session.numbered_of_serve`, `Session.recorded_of_serve`).  Every tree that is made takes
     numbers, also one that is only shown or whose program is rejected.
  3. **A history** (`Session.History.numbered`).  Its trees have numbers that are given out in its course, each
     once, by induction over the dealings: the ranges of two requests do not overlap.
  4. **A run** (`declares_of_leads`).  What is recorded does not change while a submission runs, so a function
     that is called finds what was recorded when the submission that declares it was matched.

  `numbers_used_once` puts the four together, with the remark that reading from another number on gives the
  same tree with all its numbers raised (`Grammar.parse_from`).
-/

namespace Lox

open Scope

/-! ## Numbers of a program -/

/-- The numbers of what is formed are those of its occurrences. -/
theorem numbers_of_formed {p : Phrase} {is : List Nat} (h : Formed p is) : p.numbers = is := by
  induction h <;>
    simp_all [Phrase.numbers, Expr.numbers, exprsNumbers, optionalNumbers, Stmt.numbers, stmtsNumbers,
      elseNumbers, FunctionDecl.numbers, methodsNumbers]

/-- Whatever number it starts with, reading gives the same with all numbers raised. -/
theorem Grammar.parse_from (tokens : List Token) (interactive : Bool) (k : Nat) :
    parse tokens interactive k =
      ⟨renumberStmts (· + k) (parse tokens interactive 0).program,
        (parse tokens interactive 0).diagnostics, (parse tokens interactive 0).nextId + k⟩ := by
  have htokens : List.Forall₂ (Likeness.raised 0 k).token tokens tokens :=
    List.forall₂_same.mpr fun _ _ => rfl
  have hcopy : ParsedCopy (.raised 0 k) k (parse tokens interactive 0) (parse tokens interactive (0 + k)) :=
    parse_copies htokens interactive rfl fun _ _ => rfl
  obtain ⟨hprogram, hdiagnostics, hnextId⟩ := hcopy
  have heq := Copy.eq_renumber hprogram (fun i _ h => h.trans (if_neg (Nat.not_lt_zero i))) fun _ _ h => h
  have hsame := diagnostics_eq hdiagnostics fun _ _ h => h
  rw [Nat.zero_add] at heq hsame hnextId
  generalize parse tokens interactive k = parsed at heq hsame hnextId ⊢
  obtain ⟨program, diagnostics, nextId⟩ := parsed
  cases heq
  cases hsame
  cases hnextId
  rfl

namespace Turn

variable {t : Turn}

/-- The occurrences of the program have numbers that are given out for it. -/
theorem numbered (t : Turn) :
    Numbered (stmtsNumbers t.parsed.program) t.session.nextId t.parsed.nextId :=
  Grammar.parse_numbered _ _ _

/-- A program that was read without a fault is formed. -/
theorem formed (h : t.parsed.diagnostics = []) : ∃ is, Formed (.stmts t.parsed.program) is ∧
    Numbered is t.session.nextId t.parsed.nextId :=
  formed_of_read h

/-- Distances are found for occurrences of the program only. -/
theorem found (h : t.parsed.diagnostics = []) {id : Nat} (hid : id ∉ stmtsNumbers t.parsed.program) :
    t.resolved.resolution[id]? = none := by
  obtain ⟨is, hformed, -⟩ := formed h
  exact resolve_found hformed (numbers_of_formed hformed ▸ hid)

/-- Matching the names of a program concerns the numbers that are given out for it, and no others. -/
theorem recorded_outside (h : t.parsed.diagnostics = []) {id : Nat}
    (hid : id < t.session.nextId ∨ t.parsed.nextId ≤ id) :
    t.machine.resolution[id]? = t.session.machine.resolution[id]? := by
  have hlearn : t.machine.resolution[id]? =
      t.resolved.resolution[id]?.or t.session.machine.resolution[id]? := getElem?_learn _ _ _
  -- The occurrences of the program lie between the two bounds, the number does not.
  have hnot : id ∉ stmtsNumbers t.parsed.program := fun hmem => by
    obtain ⟨hge, hlt⟩ := t.numbered.bounds id hmem
    rcases hid with hid | hid
    · exact Nat.not_lt.mpr hge hid
    · exact Nat.not_lt.mpr hid hlt
  rw [hlearn, found h hnot]
  rfl

/-- What a submission leaves: the next number, and the distances that have been recorded by then. -/
theorem leaves {answer : Answered Verdict} (h : t.outcome? = some answer) :
    answer.session.interactive = t.session.interactive ∧ answer.session.nextId = t.parsed.nextId ∧
    (answer.session.machine.resolution = t.session.machine.resolution ∨
      t.parsed.diagnostics = [] ∧ answer.session.machine.resolution = t.machine.resolution) := by
  have hforward := Eval.forward_closed.program t.fuel t.parsed.program none
  cases ends_of_outcome h with
  | unread _ => exact ⟨rfl, rfl, .inl rfl⟩
  | unmatched hread _ => exact ⟨rfl, rfl, .inr ⟨hread, rfl⟩⟩
  | done ha hrun | failed ha hrun =>
    exact ⟨rfl, rfl, .inr ⟨ha.read, (hforward _ _ (congrArg Ending.state? hrun)).resolution⟩⟩

end Turn

/-! ## Numbers of a session -/

/-- No distance is recorded for a number that has not been given out. -/
def Session.Fresh (s : Session) : Prop := ∀ id, s.nextId ≤ id → s.machine.resolution[id]? = none

/-- The first session has come to the second: more numbers have been given out, and what is recorded for
    those before is the same. -/
structure Session.Onward (s s' : Session) : Prop where
  nextId : s.nextId ≤ s'.nextId
  kept : ∀ id < s.nextId, s'.machine.resolution[id]? = s.machine.resolution[id]?

namespace Session

variable {s s' s'' : Session}

/-- A session has come to itself. -/
theorem Onward.refl (s : Session) : s.Onward s := ⟨Nat.le_refl _, fun _ _ => rfl⟩

/-- What comes later comes to what comes later still. -/
theorem Onward.trans (h : s.Onward s') (h' : s'.Onward s'') : s.Onward s'' :=
  ⟨Nat.le_trans h.nextId h'.nextId, fun id hid =>
    (h'.kept id (Nat.lt_of_lt_of_le hid h.nextId)).trans (h.kept id hid)⟩

variable {request : Request} (h : s.serve request = some s')
include h

/-- The occurrences of the tree that is made have numbers that are given out for it. -/
theorem numbered_of_serve : Numbered (stmtsNumbers (Dealing.program ⟨s, request⟩)) s.nextId s'.nextId := by
  cases request with
  | tokenize source =>
    cases h
    exact .nil (Nat.le_refl _)
  | parse source =>
    cases h
    exact Turn.numbered ⟨s, 0, source⟩
  | run fuel source =>
    obtain ⟨answer, hanswer, rfl⟩ := Option.map_eq_some_iff.mp h
    rw [(Turn.leaves (t := ⟨s, fuel, source⟩) hanswer).2.1]
    exact Turn.numbered ⟨s, fuel, source⟩
  | clearFlags =>
    cases h
    exact .nil (Nat.le_refl _)

/-- Distances are recorded for numbers that are given out with them. -/
theorem recorded_of_serve {id : Nat} (hid : id < s.nextId ∨ s'.nextId ≤ id) :
    s'.machine.resolution[id]? = s.machine.resolution[id]? := by
  cases request with
  | tokenize source | parse source | clearFlags =>
    cases h
    rfl
  | run fuel source =>
    obtain ⟨answer, hanswer, rfl⟩ := Option.map_eq_some_iff.mp h
    obtain ⟨-, hnextId, hresolution⟩ := Turn.leaves (t := ⟨s, fuel, source⟩) hanswer
    rcases hresolution with hresolution | ⟨hread, hresolution⟩
    · rw [hresolution]
    · rw [hresolution]
      exact Turn.recorded_outside hread (hnextId ▸ hid)

/-- A request only leads on. -/
theorem onward_of_serve : s.Onward s' :=
  ⟨(numbered_of_serve h).le, fun _ hid => recorded_of_serve h (.inl hid)⟩

/-- Behind a request nothing is recorded for what has not been given out either. -/
theorem Fresh.serve (hs : s.Fresh) : s'.Fresh := fun id hid => by
  rw [recorded_of_serve h (.inr hid)]
  exact hs id (Nat.le_trans (numbered_of_serve h).le hid)

end Session

/-! ## Numbers of a history -/

namespace Session.History

variable {first s : Session} {dealings : List Dealing} (h : first.History dealings s)
include h

/-- A history only leads on. -/
theorem onward : first.Onward s := by
  induction h with
  | start => exact .refl _
  | deal _ hserve ih => exact ih.trans (onward_of_serve hserve)

/-- If nothing is recorded ahead at its start, nothing is at its end. -/
theorem fresh (hfirst : first.Fresh) : s.Fresh := by
  induction h with
  | start => exact hfirst
  | deal _ hserve ih => exact ih.serve hserve

/-- The trees of a history have numbers that are given out in its course. -/
theorem numbered : Numbered (dealings.flatMap fun d => stmtsNumbers d.program) first.nextId s.nextId := by
  induction h with
  | start => exact .nil (Nat.le_refl _)
  | @deal d dealings s _ hserve ih =>
    -- The last dealing is the first of the list.
    have hall := ih.append (numbered_of_serve hserve)
    exact hall.perm List.perm_append_comm

end Session.History

/-! ## What occurrences mean -/

/-- Wherever a site is settled the same is recorded for its occurrences. -/
theorem Scope.Settled.agree {R R' : Resolution} {p : Site} (h : Settled R p) (h' : Settled R' p) {id : Nat}
    (hid : id ∈ p.phrase.numbers) : R[id]? = R'[id]? := by
  obtain ⟨is, hsits⟩ := h
  obtain ⟨is', hsits'⟩ := h'
  rw [hsits.recorded id (numbers_of_formed hsits.formed ▸ hid),
    hsits'.recorded id (numbers_of_formed hsits'.formed ▸ hid)]

/-- The sites of an accepted program are settled by what is found about it. -/
theorem Turn.Accepted.settled {t : Turn} (ha : t.Accepted) {p : Site} (hp : Visited t.parsed.program p) :
    Settled t.resolved.resolution p := by
  obtain ⟨is, hformed, hnumbered⟩ := Turn.formed ha.read
  exact settled_of_visited ⟨is, sits_program hformed hnumbered ha.matched fun _ _ => rfl⟩ hp

/-- The text of the function stands in the program of a submission, and its names mean what they meant
    when that submission was matched. -/
structure Turn.Declares (u : Turn) (d : FunctionDecl) (recorded : Resolution) : Prop where
  accepted : u.Accepted
  visited : ∃ p kind, Visited u.parsed.program p ∧ p.phrase = .function kind d
  recorded : ∀ id ∈ d.numbers, recorded[id]? = u.resolved.resolution[id]?

/-- A function that is called was declared by a submission, be it this one or one before. -/
theorem declares_of_leads {interactive : Bool} {host : Host} {dealings : List Dealing} {t : Turn}
    (h : (Session.start interactive host).History dealings t.session) (ha : t.Accepted) {n : Nat}
    {closure : Closure} {given : List Value} {m : Machine}
    (hμ : t.opening.Leads ⟨n, .callClosure closure given, m⟩) :
    ∃ u ∈ t :: turnsOf dealings, u.Declares closure.declaration m.resolution := by
  -- A function is called only if its declaration stands at a site of a program of the history.
  obtain ⟨hclosed, hpoised, -⟩ := Lexical.poised_of_history h ha hμ
  cases hpoised with
  | callClosure hstep hbound _ =>
    cases hbound with
    | intro _ hvisited _ _ _ =>
      have hsettled := hclosed.settled hvisited
      obtain ⟨u, hu, hau, hp⟩ := hvisited
      refine ⟨u, hu, hau, ⟨_, _, hp, rfl⟩, fun id hid => ?_⟩
      rw [hstep.resolution]
      exact hsettled.agree (hau.settled hp) hid

/-- What is recorded does not change while a submission runs. -/
theorem Lexical.Poised.resolution {L : Lexical.Lore} {E : Nat → String → Prop} {μ : Moment}
    (h : Lexical.Poised L E μ) : μ.machine.resolution = L.resolution := by
  cases h with
  | evaluate hs | evaluateAll hs | execute hs _ | executeAll hs _ | program hs _ =>
    exact hs.inStep.resolution
  | call hi _ _ | callClosure hi _ _ | bind hi _ _ => exact hi.resolution
  | lookUp ho | assign ho =>
    obtain ⟨⟨_, _, _, _, hi, -, -⟩, -⟩ := ho
    exact hi.resolution

/-- The tree that is made for a dealing has numbers that had not been given out before. -/
theorem Dealing.numbered (d : Dealing) :
    ∃ high, Numbered (stmtsNumbers d.program) d.session.nextId high := by
  obtain ⟨s, request⟩ := d
  cases request with
  | parse source => exact ⟨_, Turn.numbered ⟨s, 0, source⟩⟩
  | run fuel source => exact ⟨_, Turn.numbered ⟨s, fuel, source⟩⟩
  | tokenize _ | clearFlags => exact ⟨_, .nil (Nat.le_refl _)⟩

/-- What a distance is recorded for has been given out. -/
theorem Session.Fresh.below {s : Session} (h : s.Fresh) {id : Nat}
    (hid : (s.machine.resolution[id]?).isSome) : id < s.nextId := by
  by_contra hge
  rw [h id (Nat.not_lt.mp hge)] at hid
  cases hid

/-- **A number is used once.**  However a session came about, no two occurrences of names in all its trees
    have the same number, and the tree for whatever is asked next has others again.  All numbers of
    trees, and all for which a distance is recorded, have been given out.

    So what is recorded for them stays as it is in all that follows, also while a submission runs; and a
    function that is called, whichever submission declared it, finds the distances that were recorded for
    that submission.  Which number reading starts with makes no difference but to the numbers. -/
theorem numbers_used_once {interactive : Bool} {host : Host} {dealings : List Dealing} {s : Session}
    (h : (Session.start interactive host).History dealings s) :
    (∀ request, ((⟨s, request⟩ :: dealings).flatMap fun d => stmtsNumbers d.program).Nodup) ∧
    (∀ d ∈ dealings, ∀ id ∈ stmtsNumbers d.program, id < s.nextId) ∧
    (∀ id, (s.machine.resolution[id]?).isSome → id < s.nextId) ∧
    (∀ later s', s.History later s' →
      ∀ id < s.nextId, s'.machine.resolution[id]? = s.machine.resolution[id]?) ∧
    (∀ t : Turn, t.session = s → t.Accepted → ∀ μ, t.opening.Leads μ →
      (∀ id < s.nextId, μ.machine.resolution[id]? = s.machine.resolution[id]?) ∧
      (∀ id, (μ.machine.resolution[id]?).isSome → id < t.behindReading.nextId) ∧
      ∀ closure given, μ.activity = .callClosure closure given →
        ∃ u ∈ t :: turnsOf dealings,
          u.Declares closure.declaration μ.machine.resolution) ∧
    ∀ tokens interactive k, Grammar.parse tokens interactive k =
      ⟨renumberStmts (· + k) (Grammar.parse tokens interactive 0).program,
        (Grammar.parse tokens interactive 0).diagnostics,
        (Grammar.parse tokens interactive 0).nextId + k⟩ := by
  have hfresh : s.Fresh := h.fresh fun _ _ => rfl
  have hnumbered := h.numbered
  refine ⟨fun request => ?_, fun d hd id hid => ?_, fun id hid => hfresh.below hid,
    fun later s' hlater => hlater.onward.kept, ?_, Grammar.parse_from⟩
  · -- The next tree takes numbers from where the history has come to.
    obtain ⟨high, hnext⟩ := Dealing.numbered ⟨s, request⟩
    exact ((hnumbered.append hnext).perm List.perm_append_comm).nodup
  · exact (hnumbered.bounds id (List.mem_flatMap.mpr ⟨d, hd, hid⟩)).2
  · rintro t rfl ha μ hμ
    obtain ⟨-, hpoised, -⟩ := Lexical.poised_of_history h ha hμ
    have hrecorded : μ.machine.resolution = t.machine.resolution := hpoised.resolution
    rw [hrecorded]
    refine ⟨fun id hid => Turn.recorded_outside ha.read (.inl hid), fun id hid => ?_,
      fun closure given hactivity => ?_⟩
    · by_contra hge
      have hle : t.parsed.nextId ≤ id := Nat.not_lt.mp hge
      rw [Turn.recorded_outside ha.read (.inr hle), hfresh id (Nat.le_trans t.numbered.le hle)] at hid
      cases hid
    · obtain ⟨n, activity, m⟩ := μ
      cases hactivity
      exact hrecorded ▸ declares_of_leads h ha hμ

/-! ## A source that is shown twice -/

namespace ShownTwice

/-- The session before. -/
def first : Session := .start false ⟨[], #[], .whole, fun _ => 0, 0⟩

/-- The source is shown. -/
def dealing : Dealing := ⟨first, .parse "x;"⟩

/-- The session behind that, in which it is shown again. -/
def second : Session := (first.parse "x;").session

/-- It is a history of one dealing. -/
theorem history : first.History [dealing] second := .deal .start rfl

end ShownTwice

open ShownTwice in
/-- The two trees have different numbers. -/
theorem numbers_used_once_shown_twice :
    first.History [dealing] second ∧
    ([⟨second, .parse "x;"⟩, dealing].flatMap fun d => stmtsNumbers d.program) = [1, 0] ∧
    ([⟨second, .parse "x;"⟩, dealing].flatMap fun d => stmtsNumbers d.program).Nodup :=
  ⟨history, by cbv, (numbers_used_once history).1 (.parse "x;")⟩

end Lox
