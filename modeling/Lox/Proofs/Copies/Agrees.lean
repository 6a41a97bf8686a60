import Mathlib.Logic.Relation
import Lox.Action

/-!
  Actions that agree.

  Two actions agree if from states that are related they end in the same way, in related states, with
  related answers or errors.  Where the first may be given less fuel than the second (`short`), it may
  also not end at all where the second does.  There is one rule for each way to put actions together.

  The relations of the states (`S`), of the errors (`E`) and of the answers (`P`, `Q`) are parameters, and
  so is the state itself.  The same rules serve the grammar, where the state is a cursor and an error a
  diagnostic, the store, and the evaluator: who proves that two programs do the same says once what his
  states have in common, shows it of the smallest steps, and follows the text of the program with `bind`,
  `map`, `recover` and `keeping`.
-/

namespace Lox

/-- The second action ended as the first did; but if the first is `short` of fuel it need not have
    ended at all. -/
inductive Ending.Agrees {σ ε α β : Type} (short : Prop) (S : σ → σ → Prop) (E : ε → ε → Prop)
    (Q : α → β → Prop) : Ending σ ε α → Ending σ ε β → Prop where
  | done {a b s t} : Q a b → S s t → Agrees short S E Q (.done a s) (.done b t)
  | failed {e f s t} : E e f → S s t → Agrees short S E Q (.failed e s) (.failed f t)
  | exhausted : Agrees short S E Q .exhausted .exhausted
  | short {ending} : short → Agrees short S E Q .exhausted ending

/-- From related states the actions end in the same way. -/
def Action.Agrees {σ ε α β : Type} (short : Prop) (S : σ → σ → Prop) (E : ε → ε → Prop)
    (Q : α → β → Prop) (x : Action σ ε α) (y : Action σ ε β) : Prop :=
  ∀ s t, S s t → Ending.Agrees short S E Q (x s) (y t)

namespace Action.Agrees

variable {σ ε α β γ δ : Type} {short : Prop} {S : σ → σ → Prop} {E : ε → ε → Prop}
  {P : α → β → Prop} {Q : γ → δ → Prop}

/-- An answer without a step. -/
theorem pure {a : α} {b : β} (h : P a b) : Agrees short S E P (Pure.pure a) (Pure.pure b) :=
  fun _ _ hs => .done h hs

/-- Both fail, with errors that are related. -/
theorem fail {e f : ε} (h : E e f) : Agrees short S E P (.fail e) (.fail f) :=
  fun _ _ hs => .failed h hs

/-- Neither ends. -/
theorem outOfFuel : Agrees short S E P .outOfFuel .outOfFuel := fun _ _ _ => .exhausted

/-- An action without fuel agrees with any other that has more. -/
theorem of_short (h : short) {y : Action σ ε β} : Agrees short S E P .outOfFuel y :=
  fun _ _ _ => .short h

/-- What is read of related states has to be related. -/
theorem read {view : σ → α} {view' : σ → β} (h : ∀ s t, S s t → P (view s) (view' t)) :
    Agrees short S E P (.read view) (.read view') :=
  fun s t hs => .done (h s t hs) hs

/-- A change has to keep states related. -/
theorem update {change change' : σ → σ} (h : ∀ s t, S s t → S (change s) (change' t)) :
    Agrees short S E (fun _ _ => True) (.update change) (.update change') :=
  fun s t hs => .done trivial (h s t hs)

/-- One action behind the other: the rests have to agree from all answers that are related. -/
theorem bind {x : Action σ ε α} {y : Action σ ε β} {f : α → Action σ ε γ} {g : β → Action σ ε δ}
    (hx : Agrees short S E P x y) (hf : ∀ a b, P a b → Agrees short S E Q (f a) (g b)) :
    Agrees short S E Q (x >>= f) (y >>= g) := by
  intro s t hs
  have hends := hx s t hs
  generalize hxs : x s = ending, hyt : y t = ending' at hends
  cases hends with
  | done hab hst =>
    rw [bind_of_done hxs, bind_of_done hyt]
    exact hf _ _ hab _ _ hst
  | failed he hst =>
    rw [bind_of_failed hxs, bind_of_failed hyt]
    exact .failed he hst
  | exhausted =>
    rw [bind_of_exhausted hxs, bind_of_exhausted hyt]
    exact .exhausted
  | short h =>
    rw [bind_of_exhausted hxs]
    exact .short h

/-- What is made of the answers has to be related. -/
theorem map {x : Action σ ε α} {y : Action σ ε β} {f : α → γ} {g : β → δ}
    (hx : Agrees short S E P x y) (hf : ∀ a b, P a b → Q (f a) (g b)) :
    Agrees short S E Q (f <$> x) (g <$> y) := by
  rw [map_eq_pure_bind, map_eq_pure_bind]
  exact hx.bind fun a b hab => .pure (hf a b hab)

/-- What is done about an error has to agree for errors that are related. -/
theorem recover {x : Action σ ε α} {y : Action σ ε β} {f : ε → Action σ ε α}
    {g : ε → Action σ ε β} (hx : Agrees short S E P x y)
    (hf : ∀ e e', E e e' → Agrees short S E P (f e) (g e')) :
    Agrees short S E P (.recover x f) (.recover y g) := by
  intro s t hs
  have hends := hx s t hs
  unfold Action.recover
  generalize x s = ending, y t = ending' at hends
  cases hends with
  | done hab hst => exact .done hab hst
  | failed he hst => exact hf _ _ he _ _ hst
  | exhausted => exact .exhausted
  | short h => exact .short h

/-- Putting a part of the state back keeps states related. -/
theorem keeping {ρ : Type} {view : σ → ρ} {put : ρ → σ → σ} {x : Action σ ε α} {y : Action σ ε β}
    (hput : ∀ s t s' t', S s t → S s' t' → S (put (view s) s') (put (view t) t'))
    (hx : Agrees short S E P x y) : Agrees short S E P (.keeping view put x) (.keeping view put y) := by
  intro s t hs
  have hends := hx s t hs
  unfold Action.keeping
  dsimp only
  generalize x s = ending, y t = ending' at hends
  cases hends with
  | done hab hst => exact .done hab (hput _ _ _ _ hs hst)
  | failed he hst => exact .failed he (hput _ _ _ _ hs hst)
  | exhausted => exact .exhausted
  | short h => exact .short h

end Action.Agrees

end Lox
