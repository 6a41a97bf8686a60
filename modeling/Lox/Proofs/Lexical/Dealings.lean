import Lox.Proofs.Lexical.Sessions
import Lox.Proofs.Runs.Dealings

/-!
  Dealings, followed.

  Showing tokens or a program changes nothing of a session but the number of the next occurrence of a
  name and the flags; so the session stays in step with the reference (`kept_of_history`), and what the
  evaluator comes to in an accepted submission is poised whatever dealings came before it
  (`poised_of_history`).

  These two are what most statements about sessions begin with: from a history of any kind they lead to a
  moment at which the machine is known to be in step, and from there on it is a matter of that one moment.
-/

namespace Lox.Lexical

variable {turns : List Turn} {s : Lox.Session} {r : Session}

/-- Numbers may be left out, and the flags do not matter. -/
theorem Kept.skip (h : Kept turns s r) {nextId : Nat} (hle : s.nextId ≤ nextId)
    (rejected aborted : Bool) :
    Kept turns ⟨s.interactive, s.machine, nextId, rejected, aborted⟩ { r with nextId := nextId } where
  interactive := h.interactive
  nextId := rfl
  env := h.env
  host := h.host
  fresh id hid := h.fresh id (Nat.le_trans hle hid)
  settled t ht ha := by
    obtain ⟨is, hsits, his⟩ := h.settled t ht ha
    exact ⟨is, hsits, fun id hid => Nat.lt_of_lt_of_le (his id hid) hle⟩
  agree := h.agree

/-- **Every session that has come about by dealings is in step with one of the reference.**  It is the
    requests that run nothing which move the number, so this induction goes over all of them. -/
theorem kept_of_history {interactive : Bool} {host : Host} {dealings : List Dealing}
    {s : Lox.Session} (h : (Lox.Session.start interactive host).History dealings s) :
    ∃ r, Kept (turnsOf dealings) s r := by
  induction h with
  | start => exact ⟨_, kept_start interactive host⟩
  | @deal d dealings s _ hserve ih =>
    obtain ⟨r, hkept⟩ := ih
    obtain ⟨before, request⟩ := d
    cases request with
    | tokenize source =>
      cases hserve
      exact ⟨_, hkept.skip (Nat.le_refl _) _ _⟩
    | parse source =>
      cases hserve
      exact ⟨_, hkept.skip (readProgram_nextId_le _ _ _) _ _⟩
    | run fuel source =>
      obtain ⟨answer, hanswer, rfl⟩ := Option.map_eq_some_iff.mp hserve
      have houtcome := Kept.outcome (t := ⟨before, fuel, source⟩) hkept
      rw [Turn.outcome?, hanswer] at houtcome
      generalize r.run fuel source = result at houtcome
      cases houtcome with
      | some hanswers => exact ⟨_, hanswers.2⟩
    | clearFlags =>
      cases hserve
      exact ⟨_, hkept.skip (Nat.le_refl _) _ _⟩

/-- Whatever the evaluator comes to in an accepted turn is poised, whatever dealings came before. -/
theorem poised_of_history {interactive : Bool} {host : Host} {dealings : List Dealing} {t : Turn}
    (h : (Lox.Session.start interactive host).History dealings t.session) (ha : t.Accepted)
    {μ : Moment} (hμ : t.opening.Leads μ) :
    (lore t.machine.resolution (t :: turnsOf dealings)).Closed ∧
    Poised (lore t.machine.resolution (t :: turnsOf dealings))
      (Awaited (Excused t (turnsOf dealings)) t.opening μ) μ ∧
    Lives (t :: turnsOf dealings) μ := by
  obtain ⟨r, hkept⟩ := kept_of_history h
  exact hkept.poised ha hμ

end Lox.Lexical
