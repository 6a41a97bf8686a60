import Lox.Session
import Lox.Proofs.Runs.Moments

/-!
  Turns: submissions, each with the session to which it is made.

  If nothing is reported about its source (`Turn.Accepted`) the program of a turn runs, from the moment at
  which the turn opens, and whatever the evaluator comes to from there lives (`Lives`).  Likewise the sites
  that the walk over its program comes to have been seen (`Seen`).

  A submission takes one of four ways: its source is not read without a report, its names are not matched
  without one, its program runs to the end, or an error ends it.  Each has its equation
  (`Turn.outcome_unread`, `Turn.outcome_unmatched`, `Turn.outcome_accepted`), and `Turn.ends_of_outcome`
  says that an answer comes about in one of them, with the session that is left in each.  Nothing later
  unfolds the run of a session; it takes these four cases.
-/

namespace Lox

open Scope

/-- A submission, and the session to which it is made. -/
structure Turn where
  session : Session
  fuel : Nat
  source : String

namespace Turn

/-- What reading the source gives. -/
def parsed (t : Turn) : Parsed := t.session.read t.source

/-- What matching the names of its program gives. -/
def resolved (t : Turn) : Resolved := resolve t.parsed.program

/-- Nothing is reported about the source. -/
structure Accepted (t : Turn) : Prop where
  read : t.parsed.diagnostics = []
  matched : t.resolved.diagnostics = []

/-- The machine on which the program runs. -/
def machine (t : Turn) : Machine := t.session.machine.learn t.resolved.resolution

/-- The moment at which the run starts. -/
def opening (t : Turn) : Moment := ⟨t.fuel, .program t.parsed.program none, t.machine⟩

/-- What the submission leads to. -/
def outcome? (t : Turn) : Option (Answered Verdict) := t.session.run t.fuel t.source

end Turn

/-- The evaluator comes to the moment in one of the turns. -/
def Lives (turns : List Turn) (μ : Moment) : Prop :=
  ∃ t ∈ turns, t.Accepted ∧ t.opening.Leads μ

/-- The walk over the program of one of the turns comes to the site. -/
def Seen (turns : List Turn) (p : Site) : Prop :=
  ∃ t ∈ turns, t.Accepted ∧ Visited t.parsed.program p

/-- With more turns more lives. -/
theorem Lives.mono {turns turns' : List Turn} (h : turns ⊆ turns') {μ : Moment}
    (hμ : Lives turns μ) : Lives turns' μ := by
  obtain ⟨t, ht, hlives⟩ := hμ
  exact ⟨t, h ht, hlives⟩

/-- With more turns more has been seen. -/
theorem Seen.mono {turns turns' : List Turn} (h : turns ⊆ turns') {p : Site} (hp : Seen turns p) :
    Seen turns' p := by
  obtain ⟨t, ht, hseen⟩ := hp
  exact ⟨t, h ht, hseen⟩

/-! ## What a submission does -/

namespace Turn

variable {t : Turn}

/-- The session behind reading the source. -/
def behindReading (t : Turn) : Session := { t.session with nextId := t.parsed.nextId }

/-- A source that was not read without a fault. -/
theorem outcome_unread (h : t.parsed.diagnostics ≠ []) :
    t.outcome? = some (t.behindReading.reject t.parsed.diagnostics) := by
  have hread : (t.session.read t.source).diagnostics.isEmpty = false :=
    List.isEmpty_eq_false_iff.mpr h
  simp only [outcome?, Session.run, hread]
  rfl

/-- A source with names that are not right. -/
theorem outcome_unmatched (h : t.parsed.diagnostics = []) (h' : t.resolved.diagnostics ≠ []) :
    t.outcome? = some ({ t.behindReading with machine := t.machine }.reject t.resolved.diagnostics) := by
  have hread : (t.session.read t.source).diagnostics.isEmpty = true := List.isEmpty_iff.mpr h
  have hmatched : (resolve (t.session.read t.source).program).diagnostics.isEmpty = false :=
    List.isEmpty_eq_false_iff.mpr h'
  simp only [outcome?, Session.run, hread, hmatched]
  rfl

/-- A source about which nothing is reported: its program runs, and after an error the globals are
    current again. -/
theorem outcome_accepted (h : t.Accepted) :
    t.outcome? = match Eval.runAll t.fuel t.parsed.program none t.machine with
      | .done value m => some ⟨.finished value, [],
        { t.behindReading with machine := m }⟩
      | .failed error m => some ⟨.aborted error, [.runtime error],
        { t.behindReading with machine := { m with env := .global }, anyAborted := true }⟩
      | .exhausted => none := by
  have hread : (t.session.read t.source).diagnostics.isEmpty = true := List.isEmpty_iff.mpr h.read
  have hmatched : (resolve (t.session.read t.source).program).diagnostics.isEmpty = true :=
    List.isEmpty_iff.mpr h.matched
  have hrun : t.outcome? =
      { t.behindReading with machine := t.machine }.execute t.fuel t.parsed.program := by
    simp only [outcome?, Session.run, hread, hmatched]
    rfl
  rw [hrun, Session.execute, Eval.run, Action.recover]
  cases Eval.runAll t.fuel t.parsed.program none t.machine <;> rfl

/-- The ways in which a submission ends. -/
inductive Ends (t : Turn) : Answered Verdict → Prop where
  | unread : t.parsed.diagnostics ≠ [] → Ends t (t.behindReading.reject t.parsed.diagnostics)
  | unmatched : t.parsed.diagnostics = [] → t.resolved.diagnostics ≠ [] →
    Ends t ({ t.behindReading with machine := t.machine }.reject t.resolved.diagnostics)
  | done {value : Option Value} {m : Machine} : t.Accepted →
    Eval.runAll t.fuel t.parsed.program none t.machine = .done value m →
    Ends t ⟨.finished value, [], { t.behindReading with machine := m }⟩
  | failed {error : RuntimeError} {m : Machine} : t.Accepted →
    Eval.runAll t.fuel t.parsed.program none t.machine = .failed error m →
    Ends t ⟨.aborted error, [.runtime error],
      { t.behindReading with machine := { m with env := .global }, anyAborted := true }⟩

/-- A submission that is answered ends in one of these ways. -/
theorem ends_of_outcome {answer : Answered Verdict} (h : t.outcome? = some answer) : t.Ends answer := by
  by_cases hread : t.parsed.diagnostics = []
  · by_cases hmatched : t.resolved.diagnostics = []
    · rw [outcome_accepted ⟨hread, hmatched⟩] at h
      cases hrun : Eval.runAll t.fuel t.parsed.program none t.machine with
      | done value m =>
        rw [hrun] at h
        cases h
        exact .done ⟨hread, hmatched⟩ hrun
      | failed error m =>
        rw [hrun] at h
        cases h
        exact .failed ⟨hread, hmatched⟩ hrun
      | exhausted =>
        rw [hrun] at h
        cases h
    · rw [outcome_unmatched hread hmatched] at h
      cases h
      exact .unmatched hread hmatched
  · rw [outcome_unread hread] at h
    cases h
    exact .unread hread

end Turn

end Lox
