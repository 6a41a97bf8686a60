import Lox.Proofs.Runs.History
import Lox.Proofs.Scope.Programs
import Lox.Proofs.Lexical.Poised

/-!
  Sessions, followed.

  Between submissions the session and the reference keep in step (`Kept`): the store agrees with the
  state, what has been accepted is settled, and numbers of occurrences are used once only.  A submission
  ends in the same way on both sides and keeps them so (`Kept.outcome`).  Hence all that is seen of a
  session is what the reference shows (`transcript_eq`).

  A submission can end in four ways: it cannot be read, the walk has faults to report, it is run to the end, or
  it fails.  In the first two nothing is run, but numbers have been given out and what is recorded about them
  stays; in the other two the program runs on a machine that knows the distances of all programs before, since
  their functions may still be called.  So what is known in the course of a run is what all accepted turns
  have contributed (`lore`), and it must be shown to be closed each time (`lore_closed`).  That distances of
  different programs do not meet is why numbers are used once only.
-/

namespace Lox

open Scope

namespace Lexical

/-- What is known after so many turns. -/
def lore (R : Resolution) (turns : List Turn) : Lore := ⟨R, Seen turns, Lives turns⟩

/-- The names that may be missing in their frames while a turn lasts: those of parameters without an
    argument, and those of variables whose initializers were ended by an error before. -/
def Excused (t : Turn) (turns : List Turn) (f : Nat) (x : String) : Prop :=
  Unsupplied (Lives (t :: turns)) f x ∨ Abandoned (Lives turns) f x

/-- The names that may be missing in their frames between turns. -/
def Absent (turns : List Turn) (f : Nat) (x : String) : Prop :=
  Unsupplied (Lives turns) f x ∨ Abandoned (Lives turns) f x

/-- The programs of the turns are settled, and the numbers of their occurrences lie below. -/
def SettledTurns (R : Resolution) (turns : List Turn) (bound : Nat) : Prop :=
  ∀ t ∈ turns, t.Accepted → ∃ is, Sits R (.program t.parsed.program) is ∧ ∀ id ∈ is, id < bound

/-- The session and the reference are in step between submissions. -/
structure Kept (turns : List Turn) (s : Lox.Session) (r : Session) : Prop where
  interactive : r.interactive = s.interactive
  nextId : r.nextId = s.nextId
  env : s.machine.env = .global
  host : s.machine.host = r.state.host
  fresh : ∀ id, s.nextId ≤ id → s.machine.resolution[id]? = none
  settled : SettledTurns s.machine.resolution turns s.nextId
  agree : ∃ W, Agree (lore s.machine.resolution turns) (Absent turns) W s.machine.store r.state

/-! ## The first session -/

/-- The native functions are the same. -/
theorem natives_alike (L : Lore) (W : World) (natives : List Native) :
    ∀ (s : Store) (globals : Table (Option (Value Scopes))), s.frames.size = 1 →
      (∀ x, SlotAlike L.visited W (s.slot? 0 x) (globals.get? x)) →
      (natives.foldl (fun s n => s.put 0 n.name (some (.native n))) s).frames.size = 1 ∧
      (natives.foldl (fun s n => s.put 0 n.name (some (.native n))) s).objects = s.objects ∧
      (natives.foldl (fun s n => s.put 0 n.name (some (.native n))) s).nextIdentity =
        s.nextIdentity ∧
      ∀ x, SlotAlike L.visited W
        ((natives.foldl (fun s n => s.put 0 n.name (some (.native n))) s).slot? 0 x)
        ((natives.foldl (fun t n => t.insert n.name (some (.native n))) globals).get? x) := by
  induction natives with
  | nil => exact fun s globals hsize h => ⟨hsize, rfl, rfl, h⟩
  | cons n natives ih =>
    intro s globals hsize h
    have hpos : 0 < s.frames.size := hsize ▸ Nat.one_pos
    have hput := Store.slot?_put s hpos n.name (some (.native n))
    refine ih (s.put 0 n.name (some (.native n))) _ (by simp [Store.put, hsize]) fun x => ?_
    rw [hput, Table.get?_insert]
    -- Native functions are put into both, one after the other.
    by_cases hx : n.name = x
    · simp only [hx, and_self, if_true]
      exact .some (.some (.native n))
    · simp only [hx, and_false, if_false]
      exact h x

/-- The world before anything has been done. -/
def World.empty : World := ⟨fun _ _ => none, fun _ _ => false, fun _ => none⟩

/-- Nothing has been done yet. -/
theorem agree_start (host : Host) :
    Agree (lore ∅ []) (Absent []) .empty Store.initial (.start host) := by
  obtain ⟨hsize, hobjects, hidentity, hglobals⟩ :=
    natives_alike (lore ∅ []) .empty Native.all Store.start .empty rfl fun _ => .none
  -- There are no frames but the globals, and no instances.
  have hslot : ∀ f x, f ≠ 0 → Store.initial.slot? f x = none := by
    intro f x hf
    have hnone : Store.initial.frames[f]? = none :=
      Array.getElem?_eq_none (Nat.le_trans (Nat.le_of_eq hsize) (Nat.pos_of_ne_zero hf))
    rw [Store.slot?, hnone]
    rfl
  have hfield : ∀ i x, Store.initial.field? i x = none := by
    intro i x
    have hnone : Store.initial.objects = #[] := hobjects
    rw [Store.field?, hnone]
    rfl
  exact {
    framed := fun f => by
      have hframes : Store.initial.frames.size = 1 := hsize
      constructor
      · rintro ⟨ℓ, hℓ⟩
        cases hℓ
      · omega
    nonempty := Nat.lt_of_lt_of_eq Nat.one_pos hsize.symm
    inside := fun f x c h => by cases h
    once := fun f x g y c h => by cases h
    unnamed := fun f x hf _ => hslot f x hf
    filled := fun f x hf => by rw [hslot f x hf]; rfl
    named := fun f x c h => by cases h
    holds := fun f ℓ x c h => by cases h
    made := fun f ℓ h => by cases h
    excused := fun _ _ => .inl
    globals := hglobals
    objects := congrArg Array.size hobjects
    fields := fun i x => by rw [hfield]; exact .none
    identity := hidentity }

/-- A session starts in step. -/
theorem kept_start (interactive : Bool) (host : Host) :
    Kept [] (.start interactive host) (.start interactive host) :=
  ⟨rfl, rfl, rfl, rfl, fun _ _ => rfl, nofun, _, agree_start host⟩

/-! ## What is known

  Behind a submission all occurrences of its program are settled by what is recorded, also in later ones. -/

section Turns

variable {R : Resolution} {t : Turn} {turns : List Turn} {r : Session} {high : Nat}

/-- What all accepted turns have contributed is closed. -/
theorem lore_closed (h : SettledTurns R turns high) : (lore R turns).Closed where
  settled := by
    rintro p ⟨t, ht, ha, hp⟩
    obtain ⟨is, hsits, -⟩ := h t ht ha
    exact settled_of_visited ⟨is, hsits⟩ hp
  part := by
    rintro p q ⟨t, ht, ha, hp⟩ hpart
    exact ⟨t, ht, ha, hp.part hpart⟩
  calls := by
    rintro μ μ' ⟨t, ht, ha, hμ⟩ hcalls
    exact ⟨t, ht, ha, hμ.tail hcalls⟩

/-- The program of the turn, as the reference reads it. -/
theorem Kept.parsed (h : Kept turns t.session r) :
    readProgram t.source r.interactive r.nextId = t.parsed := by
  rw [h.interactive, h.nextId]
  rfl

/-- The source of one more turn concerns higher numbers only. -/
theorem Kept.nextId_le (_ : Kept turns t.session r) : t.session.nextId ≤ t.parsed.nextId :=
  readProgram_nextId_le _ _ _

/-- A turn that is not accepted adds nothing to what is known. -/
theorem SettledTurns.reject (h : SettledTurns R turns high) (ha : ¬ t.Accepted) {high' : Nat}
    (hb : high ≤ high') : SettledTurns R (t :: turns) high' := by
  intro u hu hu'
  rcases List.mem_cons.mp hu with rfl | hu
  · exact absurd hu' ha
  · obtain ⟨is, hsits, his⟩ := h u hu hu'
    exact ⟨is, hsits, fun id hid => Nat.lt_of_lt_of_le (his id hid) hb⟩

/-- What was settled stays so when the names of a program have been matched, and the program is settled
    if nothing was reported about it. -/
theorem Kept.learn (h : Kept turns t.session r) (hread : t.parsed.diagnostics = []) :
    (∀ id, t.parsed.nextId ≤ id → t.machine.resolution[id]? = none) ∧
    SettledTurns t.machine.resolution (t :: turns) t.parsed.nextId := by
  obtain ⟨is, hformed, hnumbered⟩ := formed_of_read hread
  have hlearn : ∀ id, t.machine.resolution[id]? =
      t.resolved.resolution[id]?.or t.session.machine.resolution[id]? := getElem?_learn _ _
  have hfound : ∀ id ∉ is, t.resolved.resolution[id]? = none := fun id => resolve_found hformed
  have hbounds : ∀ id ∈ is, t.session.nextId ≤ id ∧ id < t.parsed.nextId := hnumbered.bounds
  refine ⟨fun id hid => ?_, fun u hu hu' => ?_⟩
  · have hnot : id ∉ is := fun hmem => Nat.not_lt.mpr hid (hbounds id hmem).2
    rw [hlearn, hfound id hnot, h.fresh id (Nat.le_trans h.nextId_le hid)]
    rfl
  · rcases List.mem_cons.mp hu with rfl | hu
    · refine ⟨is, sits_program hformed hnumbered hu'.matched fun id hid => ?_, fun id hid =>
        (hbounds id hid).2⟩
      rw [hlearn, h.fresh id (hbounds id hid).1, Option.or_none]
      rfl
    · obtain ⟨js, hsits, hjs⟩ := h.settled u hu hu'
      refine ⟨js, hsits.learn fun id hid => hfound id fun hmem => ?_, fun id hid =>
        Nat.lt_of_lt_of_le (hjs id hid) h.nextId_le⟩
      exact Nat.not_lt.mpr (hbounds id hmem).1 (hjs id hid)

/-- The evaluator starts at the site of the program. -/
theorem Kept.stands (h : Kept turns t.session r) (ha : t.Accepted) :
    ∃ W, Stands (lore t.machine.resolution (t :: turns)) (Excused t turns) W t.machine r.state
      .topLevel .start (.stmts t.parsed.program) [] [] [] := by
  obtain ⟨W, hagree⟩ := h.agree
  have hknow : Agree (lore t.machine.resolution (t :: turns)) (Excused t turns) W
      t.session.machine.store r.state := by
    refine hagree.know (fun p => Seen.mono (List.subset_cons_self t turns))
      (fun μ => Lives.mono (List.subset_cons_self t turns)) (fun f x hx => ?_) fun _ _ => .inl
    exact hx.imp_left fun hu => hu.mono fun μ => Lives.mono (List.subset_cons_self t turns)
  exact ⟨W, ⟨hknow, h.host, rfl⟩, ⟨t, List.mem_cons_self, ha, .program⟩, .nil,
    congrArg (fun env : Env => env.frame :: env.outer) h.env⟩

/-! ## One turn -/

/-- A turn of which nothing runs leaves everything in step. -/
theorem Kept.reject (h : Kept turns t.session r) {m : Machine}
    (hm : m.store = t.session.machine.store ∧ m.env = t.session.machine.env ∧
      m.host = t.session.machine.host)
    (hfresh : ∀ id, t.parsed.nextId ≤ id → m.resolution[id]? = none)
    (hsettled : SettledTurns m.resolution (t :: turns) t.parsed.nextId) (rejected aborted : Bool) :
    Kept (t :: turns) ⟨t.session.interactive, m, t.parsed.nextId, rejected, aborted⟩
      { r with nextId := t.parsed.nextId } := by
  obtain ⟨hstore, henv, hhost⟩ := hm
  obtain ⟨W, hagree⟩ := h.agree
  refine ⟨h.interactive, rfl, henv.trans h.env, hhost.trans h.host, hfresh, hsettled, W, ?_⟩
  show Agree _ _ _ m.store _
  rw [hstore]
  have hsub : turns ⊆ t :: turns := List.subset_cons_self t turns
  refine hagree.know (fun p => Seen.mono hsub) (fun μ => Lives.mono hsub) (fun f x hx => ?_)
    fun _ _ => .inl
  exact hx.imp (fun hu => hu.mono fun μ => Lives.mono hsub) fun hab => hab.mono fun μ => Lives.mono hsub

/-- A turn whose program has run leaves everything in step. -/
theorem Kept.ran (h : Kept turns t.session r) (hread : t.parsed.diagnostics = []) {W : World}
    {m : Machine} {s : State} {E : Nat → String → Prop}
    (hi : InStep (lore t.machine.resolution (t :: turns)) E W m s) (henv : m.env = .global)
    (hE : ∀ f x, E f x → Absent (t :: turns) f x) (rejected aborted : Bool) :
    Kept (t :: turns) ⟨t.session.interactive, m, t.parsed.nextId, rejected, aborted⟩
      ⟨r.interactive, s, t.parsed.nextId⟩ := by
  obtain ⟨hfresh, hsettled⟩ := h.learn hread
  have hresolution : m.resolution = t.machine.resolution := hi.resolution
  rw [← hresolution] at hfresh hsettled
  exact ⟨h.interactive, rfl, henv, hi.host, hfresh, hsettled, W,
    hi.agree.know (fun _ hp => hp) (fun _ hμ => hμ) hE fun _ _ => .inl⟩

end Turns

end Lexical

/-! ## What is seen

  The answers of both sessions show the same, whether the submission is rejected, runs or is ended by an error. -/

/-- How a submission ended, as far as it is seen. -/
def Verdict.outcome : Verdict → Lexical.Outcome
  | .finished value => .finished (value.map Value.printed)
  | .rejected faults => .rejected faults
  | .aborted error => .aborted error

namespace Lexical

/-- The answers show the same, and everything is in step again. -/
def Answers (turns : List Turn) (answer : Answered Verdict) (result : Outcome × Session) : Prop :=
  answer.result.outcome = result.1 ∧ Kept turns answer.session result.2

section Outcomes

variable {t : Turn} {turns : List Turn} {r : Session}

/-- A submission that cannot be read. -/
theorem Kept.unread (h : Kept turns t.session r) (hread : t.parsed.diagnostics ≠ []) :
    Option.Rel (Answers (t :: turns)) t.outcome? (r.run t.fuel t.source) := by
  have hrun : r.run t.fuel t.source =
      some (.rejected t.parsed.diagnostics.length, { r with nextId := t.parsed.nextId }) := by
    have hfaults : Session.faults t.parsed = t.parsed.diagnostics :=
      if_neg fun hempty => hread (List.isEmpty_iff.mp hempty)
    rw [Session.run, h.parsed, hfaults]
    exact if_neg fun hempty => hread (List.isEmpty_iff.mp hempty)
  have ha : ¬ t.Accepted := fun ha => hread ha.read
  rw [Turn.outcome_unread hread, hrun]
  exact .some ⟨rfl, h.reject ⟨rfl, rfl, rfl⟩
    (fun id hid => h.fresh id (Nat.le_trans h.nextId_le hid)) (h.settled.reject ha h.nextId_le) _ _⟩

/-- A submission about which the walk has something to report. -/
theorem Kept.unmatched (h : Kept turns t.session r) (hread : t.parsed.diagnostics = [])
    (hmatched : t.resolved.diagnostics ≠ []) :
    Option.Rel (Answers (t :: turns)) t.outcome? (r.run t.fuel t.source) := by
  have hrun : r.run t.fuel t.source =
      some (.rejected t.resolved.diagnostics.length, { r with nextId := t.parsed.nextId }) := by
    have hfaults : Session.faults t.parsed = t.resolved.diagnostics :=
      if_pos (List.isEmpty_iff.mpr hread)
    rw [Session.run, h.parsed, hfaults]
    exact if_neg fun hempty => hmatched (List.isEmpty_iff.mp hempty)
  obtain ⟨hfresh, hsettled⟩ := h.learn hread
  rw [Turn.outcome_unmatched hread hmatched, hrun]
  exact .some ⟨rfl, h.reject (m := t.machine) ⟨rfl, rfl, rfl⟩ hfresh hsettled _ _⟩

/-- A submission that is run. -/
theorem Kept.accepted (h : Kept turns t.session r) (ha : t.Accepted) :
    Option.Rel (Answers (t :: turns)) t.outcome? (r.run t.fuel t.source) := by
  have hclosed : (lore t.machine.resolution (t :: turns)).Closed := lore_closed (h.learn ha.read).2
  obtain ⟨W, hstands⟩ := h.stands ha
  have hruns := runAll_follows hclosed t.parsed.program hstands .none
    ⟨t, List.mem_cons_self, ha, .refl⟩
  have hfaults : Session.faults t.parsed = [] :=
    (if_pos (List.isEmpty_iff.mpr ha.read)).trans ha.matched
  -- What was excused while the submission ran is accounted for once it belongs to the past.
  have hexcused : ∀ f x, Excused t turns f x → Absent (t :: turns) f x := fun f x hx =>
    hx.imp_right fun hab => hab.mono fun μ => Lives.mono (List.subset_cons_self t turns)
  rw [Turn.outcome_accepted ha, Session.run_of_faultless h.parsed hfaults]
  unfold Follows at hruns
  generalize Eval.runAll t.fuel t.parsed.program none t.machine = ending at hruns ⊢
  generalize runAll t.fuel t.parsed.program none r.state = ending' at hruns ⊢
  cases hruns with
  | exhausted => exact .none
  | @done value m value' s hreaches =>
    obtain ⟨W', -, hi, henv, hvalue⟩ := hreaches
    have hshown : value.map Value.printed = value'.map Value.printed := by
      cases hvalue with
      | none => rfl
      | some hv => exact congrArg some hv.printed
    exact .some ⟨congrArg Outcome.finished hshown,
      h.ran ha.read hi (henv.trans h.env) hexcused _ _⟩
  | failed hbreaks =>
    obtain ⟨⟨W', -, hi⟩, -⟩ := hbreaks
    refine .some ⟨rfl, h.ran ha.read (hi.within .global) rfl (fun f x hx => ?_) _ _⟩
    exact hx.elim (hexcused f x) .inr

/-- **A submission ends in the same way on both sides**, and everything is in step again. -/
theorem Kept.outcome (h : Kept turns t.session r) :
    Option.Rel (Answers (t :: turns)) t.outcome? (r.run t.fuel t.source) := by
  by_cases hread : t.parsed.diagnostics = []
  · by_cases hmatched : t.resolved.diagnostics = []
    · exact h.accepted ⟨hread, hmatched⟩
    · exact h.unmatched hread hmatched
  · exact h.unread hread

end Outcomes

/-- Whatever the evaluator comes to in an accepted turn is poised.  Of the names of its frames only
    those may be missing that are excused, or whose initializers are still being evaluated. -/
theorem Kept.poised {turns : List Turn} {t : Turn} {r : Session} (h : Kept turns t.session r)
    (ha : t.Accepted) {μ : Moment} (hμ : t.opening.Leads μ) :
    (lore t.machine.resolution (t :: turns)).Closed ∧
    Poised (lore t.machine.resolution (t :: turns)) (Awaited (Excused t turns) t.opening μ) μ ∧
    Lives (t :: turns) μ := by
  have hclosed : (lore t.machine.resolution (t :: turns)).Closed := lore_closed (h.learn ha.read).2
  obtain ⟨W, hstands⟩ := h.stands ha
  have hopening : Lives (t :: turns) t.opening := ⟨t, List.mem_cons_self, ha, .refl⟩
  have hpoised : Poised (lore t.machine.resolution (t :: turns)) (Excused t turns) t.opening :=
    .program hstands .none
  exact ⟨hclosed, hpoised.leads hclosed hopening hμ⟩

end Lexical

/-! ## Transcripts -/

/-- Runs submissions, each with its fuel, one after the other.  Gives how each ended and what it left
    of the host, with all that has been printed. -/
def Session.transcript : List (Nat × String) → Session → Option (List (Lexical.Outcome × Host))
  | [], _ => some []
  | (fuel, source) :: rest, s => do
    let answer ← s.run fuel source
    let others ← answer.session.transcript rest
    some ((answer.result.outcome, answer.session.machine.host) :: others)

namespace Lexical

/-- One submission after the other. -/
theorem Kept.transcript {turns : List Turn} {s : Lox.Session} {r : Session} (h : Kept turns s r)
    (submissions : List (Nat × String)) : s.transcript submissions = r.transcript submissions := by
  induction submissions generalizing turns s r with
  | nil => rfl
  | cons submission rest ih =>
    obtain ⟨fuel, source⟩ := submission
    have houtcome := h.outcome (t := ⟨s, fuel, source⟩)
    rw [Lox.Session.transcript, Session.transcript]
    have hrun : Turn.outcome? ⟨s, fuel, source⟩ = s.run fuel source := rfl
    rw [hrun] at houtcome
    dsimp only at houtcome
    generalize s.run fuel source = answer at houtcome ⊢
    generalize r.run fuel source = result at houtcome ⊢
    cases houtcome with
    | none => rfl
    | some hanswers =>
      obtain ⟨hresult, hkept⟩ := hanswers
      simp only [Option.bind_eq_bind, Option.bind_some, ih hkept, hresult, hkept.host]

/-- **All that is seen of a session is what the reference shows.**  Whatever is submitted to it, with
    whatever fuel and on whatever host, each submission is rejected, comes to its end with the same
    value shown or is ended by the same error, and what it leaves of the host is the same: the output,
    the input that has not been read and how often the clock has been asked. -/
theorem transcript_eq (interactive : Bool) (host : Host) (submissions : List (Nat × String)) :
    (Lox.Session.start interactive host).transcript submissions =
      (Session.start interactive host).transcript submissions :=
  (kept_start interactive host).transcript submissions

/-- A function sees the names that are there at the place of its text, and no others. -/
example :
    ((Session.start false ⟨[], #[], .whole, fun _ => 0, 0⟩).transcript
      [(40, "var a = \"global\"; \x7b func show() \x7b print(a); \x7d show(); var a = \"block\"; show(); \x7d")]).map
        (·.map fun entry => (entry.1, entry.2.printed.toList)) =
      some [(.finished none, ["global\n", "global\n"])] := by
  decide +kernel

end Lexical

end Lox
