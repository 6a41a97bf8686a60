/-!
  Actions: steps that change a state, may fail and may run out of fuel.

  The grammar, the store and the evaluator are all written as actions, so that the order of effects can be
  read off their text and one set of lemmas serves them all.  What tells them apart from the usual monads
  is how they end (`Ending`):

  * a failure keeps the state that was reached, so that reading goes on after a fault, and a session goes
    on after an error with what had been done by then;
  * an action that has run out of fuel has no state and no answer, so that nothing can be concluded from it
    by mistake.  There is no handling of this case: `recover` handles failures only.

  `keeping` is the one way to change a part of the state for a while.  It puts the part back however the
  action ends, which is what a block and a call do with the current frame, and a loop with its depth.

  The lemmas say how a sequence of two actions runs, by how the first one ends (`bind_of_done`,
  `bind_of_failed`, `bind_of_exhausted`), and, the other way round, what a sequence that ended must have
  gone through (`bind_eq_done_iff`, `bind_eq_failed_iff`).
-/

namespace Lox

/-- How an action ended. -/
inductive Ending (σ ε α : Type) where
  /-- With an answer. -/
  | done (a : α) (s : σ)
  /-- With an error. -/
  | failed (e : ε) (s : σ)
  /-- Not at all within the fuel. -/
  | exhausted

/-- A step from one state to the next. -/
def Action (σ ε α : Type) : Type := σ → Ending σ ε α

namespace Action

variable {σ ε α β : Type}

@[always_inline]
instance : Monad (Action σ ε) where
  pure a := fun s => .done a s
  bind x f := fun s =>
    match x s with
    | .done a t => f a t
    | .failed e t => .failed e t
    | .exhausted => .exhausted

/-- Ends the action with an error. -/
@[inline] def fail (e : ε) : Action σ ε α := fun s => .failed e s

/-- Ends the action for want of fuel. -/
@[inline] def outOfFuel : Action σ ε α := fun _ => .exhausted

/-- A part of the state. -/
@[inline] def read (view : σ → α) : Action σ ε α := fun s => .done (view s) s

/-- Changes the state. -/
@[inline] def update (change : σ → σ) : Action σ ε Unit := fun s => .done () (change s)

/-- Runs `x` and, if it fails, goes on with `handle`. -/
@[inline] def recover (x : Action σ ε α) (handle : ε → Action σ ε α) : Action σ ε α := fun s =>
  match x s with
  | .done a t => .done a t
  | .failed e t => handle e t
  | .exhausted => .exhausted

/-- Runs `x` and puts a part of the state back as it was before, however `x` ends. -/
@[inline] def keeping (view : σ → β) (put : β → σ → σ) (x : Action σ ε α) : Action σ ε α := fun s =>
  let before := view s
  match x s with
  | .done a t => .done a (put before t)
  | .failed e t => .failed e (put before t)
  | .exhausted => .exhausted

/-! ## How actions run -/

theorem bind_of_done {x : Action σ ε α} {f : α → Action σ ε β} {s t : σ} {a : α}
    (h : x s = .done a t) : (x >>= f) s = f a t := by
  simp [bind, h]

theorem bind_of_failed {x : Action σ ε α} {f : α → Action σ ε β} {s t : σ} {e : ε}
    (h : x s = .failed e t) : (x >>= f) s = .failed e t := by
  simp [bind, h]

theorem bind_of_exhausted {x : Action σ ε α} {f : α → Action σ ε β} {s : σ}
    (h : x s = .exhausted) : (x >>= f) s = .exhausted := by
  simp [bind, h]

theorem bind_eq_done_iff {x : Action σ ε α} {f : α → Action σ ε β} {s u : σ} {b : β} :
    (x >>= f) s = .done b u ↔ ∃ a t, x s = .done a t ∧ f a t = .done b u := by
  constructor
  · intro h
    cases hx : x s with
    | done a t => exact ⟨a, t, rfl, by rwa [bind_of_done hx] at h⟩
    | failed e t => rw [bind_of_failed hx] at h; cases h
    | exhausted => rw [bind_of_exhausted hx] at h; cases h
  · rintro ⟨a, t, hx, hf⟩
    rw [bind_of_done hx, hf]

theorem bind_eq_failed_iff {x : Action σ ε α} {f : α → Action σ ε β} {s u : σ} {e : ε} :
    (x >>= f) s = .failed e u ↔
      x s = .failed e u ∨ ∃ a t, x s = .done a t ∧ f a t = .failed e u := by
  constructor
  · intro h
    cases hx : x s with
    | done a t => exact .inr ⟨a, t, rfl, by rwa [bind_of_done hx] at h⟩
    | failed e t =>
      rw [bind_of_failed hx] at h
      cases h
      exact .inl rfl
    | exhausted => rw [bind_of_exhausted hx] at h; cases h
  · rintro (hx | ⟨a, t, hx, hf⟩)
    · exact bind_of_failed hx
    · rw [bind_of_done hx, hf]

instance : LawfulMonad (Action σ ε) :=
  LawfulMonad.mk' _
    (by intro α x; funext s; simp only [Functor.map]; cases x s <;> rfl)
    (by intro α β a f; rfl)
    (by intro α β γ x f g; funext s; simp only [bind]; cases x s <;> rfl)

end Action

end Lox
