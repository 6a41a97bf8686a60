import Lox.Grammar.Program
import Lox.Proofs.Grammar.Closed

/-!
  Reading moves forward.

  `Follows` is what lies between a cursor and a later one: tokens are read off the front only, numbers
  of occurrences only grow, and what has been reported stays reported.  Every production moves so
  (`tame`), whether it succeeds or fails.

  This is a law in the sense of `Closed`, the first one and the one on which others rest.  That what has
  been reported stays reported lets a reading without reports be taken apart into parts without reports;
  that no token is put back lets the number of tokens ahead bound the fuel, and keeps what stands behind a
  phrase out of it.  The number of loops around is the same at the end of every production as at its
  start, though it may be another one in between: a body is read with its own number, and the old one is put
  back, on success and on failure.
-/

namespace Lox

/-- The state in which an action ended, if it did. -/
def Ending.state? {σ ε α : Type} : Ending σ ε α → Option σ
  | .done _ s => some s
  | .failed _ s => some s
  | .exhausted => none

/-- A sequence that ended did so with its first action, which failed, or behind it. -/
theorem Action.state?_bind {σ ε α β : Type} {x : Action σ ε α} {f : α → Action σ ε β} {s u : σ}
    (h : ((x >>= f) s).state? = some u) :
    (∃ e, x s = .failed e u) ∨ ∃ a t, x s = .done a t ∧ (f a t).state? = some u := by
  cases hx : x s with
  | done a t => exact .inr ⟨a, t, rfl, by rwa [bind_of_done hx] at h⟩
  | failed e t =>
    rw [bind_of_failed hx] at h
    cases h
    exact .inl ⟨e, rfl⟩
  | exhausted =>
    rw [bind_of_exhausted hx] at h
    cases h

namespace Grammar

/-! ## What lies between two cursors -/

/-- The second cursor can be reached from the first by reading. -/
structure Follows (c d : Cursor) : Prop where
  ahead : d.ahead <:+ c.ahead
  finish : d.finish = c.finish
  interactive : d.interactive = c.interactive
  loopDepth : d.loopDepth = c.loopDepth
  nextId : c.nextId ≤ d.nextId
  clean : d.problems = #[] → c.problems = #[]

namespace Follows

/-- Nothing has been read. -/
theorem refl (c : Cursor) : Follows c c :=
  ⟨List.suffix_refl _, rfl, rfl, rfl, Nat.le_refl _, id⟩

/-- One stretch behind the other. -/
theorem trans {c d e : Cursor} (h : Follows c d) (h' : Follows d e) : Follows c e :=
  ⟨h'.ahead.trans h.ahead, h'.finish.trans h.finish, h'.interactive.trans h.interactive,
    h'.loopDepth.trans h.loopDepth, Nat.le_trans h.nextId h'.nextId, fun hc => h.clean (h'.clean hc)⟩

/-- Reading never puts a token back. -/
theorem length_le {c d : Cursor} (h : Follows c d) : d.ahead.length ≤ c.ahead.length :=
  h.ahead.length_le

/-- A report reads nothing. -/
theorem report (c : Cursor) (d : Diagnostic) : Follows c (c.report d) :=
  ⟨List.suffix_refl _, rfl, rfl, rfl, Nat.le_refl _,
    fun h => absurd (congrArg Array.size h) (by simp [Cursor.report])⟩

end Follows

/-- What is left behind a boundary is left of the tokens. -/
theorem nextBoundary_suffix (last : Token) (ts : List Token) : nextBoundary last ts <:+ ts := by
  induction ts generalizing last with
  | nil => exact List.suffix_refl _
  | cons t rest ih =>
    rw [nextBoundary]
    split
    · exact List.suffix_refl _
    · exact (ih t).trans (List.suffix_cons t rest)

/-! ## Every production moves forward -/

/-- However the production ends, it has only read on. -/
def Tame {α : Type} (p : Production α) : Prop := ∀ c d, (p c).state? = some d → Follows c d

/-- A failed declaration is reported, and what is skipped is read. -/
theorem tame_resume {α : Type} (problem : Diagnostic) :
    Tame (resume problem : Production (Option α)) := by
  intro c d h
  cases hc : c.ahead with
  | nil =>
    have hd : c.report problem = d := by
      simpa [resume, bind, Action.update, skipToBoundary, Cursor.report, pure, hc,
        Ending.state?] using h
    rw [← hd]
    exact .report c problem
  | cons t rest =>
    have hd : { c.report problem with ahead := nextBoundary t rest } = d := by
      simpa [resume, bind, Action.update, skipToBoundary, Cursor.report, pure, hc,
        Ending.state?] using h
    rw [← hd]
    refine ⟨?_, rfl, rfl, rfl, Nat.le_refl _, (Follows.report c problem).clean⟩
    rw [hc]
    exact (nextBoundary_suffix t rest).trans (List.suffix_cons t rest)

/-- Sequences of tame productions are tame, and so on: all productions are. -/
theorem tame_closed : Closed @Tame where
  pure := by
    rintro α a c d ⟨⟩
    exact .refl c
  bind := by
    intro α β x f hx hf c d h
    obtain ⟨p, hxc⟩ | ⟨a, e, hxc, hfd⟩ := Action.state?_bind h
    · exact hx c d (by rw [hxc]; rfl)
    · exact (hx c e (by rw [hxc]; rfl)).trans (hf a e d hfd)
  outOfFuel := by
    rintro α c d ⟨⟩
  acceptWhere := by
    intro fits c d h
    rw [acceptWhere] at h
    split at h
    · rename_i t rest hc
      split at h
      · cases h
        exact ⟨hc ▸ List.suffix_cons t rest, rfl, rfl, rfl, Nat.le_refl _, id⟩
      · cases h
        exact .refl c
    · cases h
      exact .refl c
  read := by
    rintro α view c d ⟨⟩
    exact .refl c
  report := by
    rintro token fault c d ⟨⟩
    exact .report c _
  failHere := by
    rintro α fault c d ⟨⟩
    exact .refl c
  freshRef := by
    rintro name c d ⟨⟩
    exact ⟨List.suffix_refl _, rfl, rfl, rfl, Nat.le_succ _, id⟩
  withLoops := by
    intro α depth x hx c d h
    -- The depth is put back, so nothing but it differs from the run inside.
    have inner := hx { c with loopDepth := depth c.loopDepth }
    simp only [withLoops, Action.keeping, bind, Action.update] at h
    cases hxc : x { c with loopDepth := depth c.loopDepth } with
    | done a e =>
      simp only [hxc] at h
      cases h
      have he := inner e (by rw [hxc]; rfl)
      exact ⟨he.ahead, he.finish, he.interactive, rfl, he.nextId, he.clean⟩
    | failed p e =>
      simp only [hxc] at h
      cases h
      have he := inner e (by rw [hxc]; rfl)
      exact ⟨he.ahead, he.finish, he.interactive, rfl, he.nextId, he.clean⟩
    | exhausted =>
      simp only [hxc] at h
      cases h
  recover := by
    intro α x hx c d h
    simp only [Action.recover, Functor.map] at h
    cases hxc : x c with
    | done a e =>
      simp only [hxc] at h
      exact hx c d (by rw [hxc]; exact h)
    | failed p e =>
      simp only [hxc] at h
      exact (hx c e (by rw [hxc]; rfl)).trans (tame_resume p e d h)
    | exhausted =>
      simp only [hxc] at h
      cases h

/-- Every rule moves forward. -/
theorem tame (fuel : Nat) : Rules @Tame fuel := tame_closed.rules fuel

end Grammar

end Lox
