import Lox.Proofs.Lexical.Agree

/-!
  Runs that follow each other.

  A machine and a state are in step if the store agrees with the state and the rest is the same
  (`InStep`).  A run from the one follows a run from the other if both end in the same way, in step
  again and with results that are related, or with the same error, or both not at all (`Follows`).  The
  rules say how this goes through the combinations that programs are run with.

  Of the world behind a run it is said how it may differ from that in front: it is later, and frames of the
  program that are not among the loose ones have no new names.  The frames that are current are the same
  again.  If the run fails, the two are in step as well, since a session goes on behind an error; but what was
  pending then is missing, and at the top of a program a global may have been declared twice.

  `Follows.bind` is the rule by which all of this is composed.  It hands on to the second part the machine
  and the state behind the first, the later world, and the fact that the first part was done, which is what a
  `Calls` needs.  The other rules are for steps that only one of the two has (`first`, `second`), for names
  that are pending meanwhile (`excusing`), and for a world that is later before a run (`later`, `close`).
-/

namespace Lox.Lexical

open Scope

/-- The machine and the state are in step. -/
structure InStep (L : Lore) (E : Nat → String → Prop) (W : World) (m : Machine) (t : State) :
    Prop where
  agree : Agree L E W m.store t
  host : m.host = t.host
  resolution : m.resolution = L.resolution

namespace InStep

variable {L : Lore} {E E' : Nat → String → Prop} {W : World} {m : Machine} {t : State}

/-- Which frames are current does not matter. -/
theorem within (h : InStep L E W m t) (env : Env) : InStep L E W { m with env := env } t :=
  ⟨h.agree, h.host, h.resolution⟩

/-- More may be excused. -/
theorem excuse (h : InStep L E W m t) (hE : ∀ f x, E f x → E' f x) : InStep L E' W m t :=
  ⟨h.agree.excuse hE, h.host, h.resolution⟩

end InStep

/-- Two runs end in the same way, with what is required of their answers or of their errors. -/
inductive Matches {α β : Type} (Q : α → Machine → β → State → Prop)
    (F : RuntimeError → Machine → State → Prop) :
    Ending Machine RuntimeError α → Ending State RuntimeError β → Prop where
  | done {a m b t} : Q a m b t → Matches Q F (.done a m) (.done b t)
  | failed {e m t} : F e m t → Matches Q F (.failed e m) (.failed e t)
  | exhausted : Matches Q F .exhausted .exhausted

namespace Matches

variable {α β γ δ : Type} {Q : α → Machine → β → State → Prop}
  {F : RuntimeError → Machine → State → Prop} {x : Eval α} {y : Run β} {m : Machine} {t : State}

/-- What is required may be weakened, with an eye to how the first run has ended. -/
theorem imp {Q' : α → Machine → β → State → Prop} {F' : RuntimeError → Machine → State → Prop}
    (h : Matches Q F (x m) (y t))
    (hq : ∀ a m' b t', x m = .done a m' → Q a m' b t' → Q' a m' b t')
    (hf : ∀ e m' t', x m = .failed e m' → F e m' t' → F' e m' t') : Matches Q' F' (x m) (y t) := by
  generalize hx : x m = ending at h
  generalize y t = ending' at h
  cases h with
  | done h => exact .done (hq _ _ _ _ hx h)
  | failed h => exact .failed (hf _ _ _ hx h)
  | exhausted => exact .exhausted

/-- One run behind another. -/
theorem bind {Q' : γ → Machine → δ → State → Prop} {F' : RuntimeError → Machine → State → Prop}
    {f : α → Eval γ} {g : β → Run δ} (h : Matches Q F (x m) (y t))
    (hq : ∀ a m' b t', x m = .done a m' → Q a m' b t' → Matches Q' F' (f a m') (g b t'))
    (hf : ∀ e m' t', x m = .failed e m' → F e m' t' → F' e m' t') :
    Matches Q' F' ((x >>= f) m) ((y >>= g) t) := by
  generalize hx : x m = ending at h
  generalize hy : y t = ending' at h
  cases h with
  | done h =>
    rw [Action.bind_of_done hx, Action.bind_of_done hy]
    exact hq _ _ _ _ hx h
  | failed h =>
    rw [Action.bind_of_failed hx, Action.bind_of_failed hy]
    exact .failed (hf _ _ _ hx h)
  | exhausted =>
    rw [Action.bind_of_exhausted hx, Action.bind_of_exhausted hy]
    exact .exhausted

/-- How the second run has ended, if the first was done. -/
theorem of_done {a : α} {m' : Machine} (h : Matches Q F (x m) (y t)) (hx : x m = .done a m') :
    ∃ b t', y t = .done b t' ∧ Q a m' b t' := by
  rw [hx] at h
  generalize hy : y t = ending at h
  cases h with
  | done h => exact ⟨_, _, rfl, h⟩

/-- How the second run has ended, if the first failed. -/
theorem of_failed {e : RuntimeError} {m' : Machine} (h : Matches Q F (x m) (y t))
    (hx : x m = .failed e m') : ∃ t', y t = .failed e t' ∧ F e m' t' := by
  rw [hx] at h
  generalize hy : y t = ending at h
  cases h with
  | failed h => exact ⟨_, rfl, h⟩

end Matches

/-- In step again, in a larger world, with the same frames current. -/
def Reaches {α β : Type} (L : Lore) (E : Nat → String → Prop) (W : World) (loose : Nat → Prop)
    (env : Env) (Q : World → α → β → Prop) (a : α) (m : Machine) (b : β) (t : State) : Prop :=
  ∃ W', Later loose W W' ∧ InStep L E W' m t ∧ m.env = env ∧ Q W' a b

/-- The name is excused, if need be because its initializer was ended by an error. -/
def Missing (L : Lore) (E : Nat → String → Prop) (f : Nat) (x : String) : Prop :=
  E f x ∨ Abandoned L.lived f x

/-- In step again after an error, which is none that is ruled out.  Only a global can be declared
    once too often. -/
structure Breaks (L : Lore) (E : Nat → String → Prop) (W : World) (top : Prop) (e : RuntimeError)
    (m : Machine) (t : State) : Prop where
  inStep : ∃ W', Later (fun _ => True) W W' ∧ InStep L (Missing L E) W' m t
  fault : e.fault ∉ ruledOut ∨ e.fault = .alreadyDefined ∧ top

/-- The run of the state follows that of the machine. -/
def Follows {α β : Type} (L : Lore) (E : Nat → String → Prop) (W : World) (loose : Nat → Prop)
    (top : Prop) (Q : World → α → β → Prop) (x : Eval α) (m : Machine) (y : Run β) (t : State) :
    Prop :=
  Matches (Reaches L E W loose m.env Q) (Breaks L E W top) (x m) (y t)

/-- Nothing is declared at top level. -/
abbrev Never : Prop := False

section Rules

variable {α β γ δ : Type} {L : Lore} {E : Nat → String → Prop} {W W' : World}
  {loose loose' : Nat → Prop} {top top' : Prop} {Q : World → α → β → Prop}
  {Q' : World → γ → δ → Prop} {x : Eval α} {y : Run β} {m : Machine} {t : State}

/-- An error in a later world is one in an earlier. -/
theorem Breaks.later {e : RuntimeError} (h : Breaks L E W' top e m t) (hl : Later loose W W')
    (ht : top → top') : Breaks L E W top' e m t := by
  obtain ⟨⟨W'', hl', hi⟩, hf⟩ := h
  exact ⟨⟨W'', (hl.loosen fun _ _ => trivial).trans hl', hi⟩, hf.imp_right fun h => ⟨h.1, ht h.2⟩⟩

/-- An error that comes about where the two are in step. -/
theorem Breaks.here {token : Token} {fault : RuntimeFault} (hi : InStep L E W m t)
    (hf : fault ∉ ruledOut) : Breaks L E W top ⟨token, fault⟩ m t :=
  ⟨⟨W, .refl W, hi.excuse fun _ _ => .inl⟩, .inl hf⟩

namespace Follows

/-- Both give an answer at once. -/
theorem pure {a : α} {b : β} (hi : InStep L E W m t) (hq : Q W a b) :
    Follows L E W loose top Q (pure a) m (pure b) t :=
  .done ⟨W, .refl W, hi, rfl, hq⟩

/-- Both fail at once, with the same error. -/
theorem fail {token : Token} {fault : RuntimeFault} (hi : InStep L E W m t)
    (hf : fault ∉ ruledOut) :
    Follows L E W loose top Q (Machine.failAt token fault) m (failAt token fault) t :=
  .failed (.here hi hf)

/-- Both do what an operator says. -/
theorem lift {token : Token} {r : Except RuntimeFault α} {r' : Except RuntimeFault β}
    (hi : InStep L E W m t) (h : Same (Q W) r r') :
    Follows L E W loose top Q (Machine.liftAt token r) m (liftAt token r') t := by
  cases h with
  | ok h => exact .pure hi h
  | error h => exact .fail hi h

/-- One run behind another. -/
theorem bind {f : α → Eval γ} {g : β → Run δ} (h : Follows L E W loose top Q x m y t)
    (hq : ∀ a m' b t' W', x m = .done a m' → Later loose W W' → InStep L E W' m' t' →
      m'.env = m.env → Q W' a b → Follows L E W' loose top Q' (f a) m' (g b) t') :
    Follows L E W loose top Q' (x >>= f) m (y >>= g) t := by
  refine Matches.bind h (fun a m' b t' hx h => ?_) fun _ _ _ _ h => h
  obtain ⟨W', hl, hi, henv, hab⟩ := h
  refine (hq a m' b t' W' hx hl hi henv hab).imp (fun c m'' d t'' _ h => ?_) fun _ _ _ _ h => ?_
  · obtain ⟨W'', hl', hi', henv', hcd⟩ := h
    exact ⟨W'', hl.trans hl', hi', henv'.trans henv, hcd⟩
  · exact h.later hl id

/-- A run behind one that leaves all frames as they are, and for which more names are excused.  If it
    fails they are abandoned. -/
theorem excusing {E' : Nat → String → Prop} {f : α → Eval γ} {g : β → Run δ}
    (h : Follows L E' W Fixed Never Q x m y t)
    (hq : ∀ a m' b t' W', x m = .done a m' → Later Fixed W W' → InStep L E' W' m' t' →
      m'.env = m.env → Q W' a b → Follows L E W' loose top Q' (f a) m' (g b) t')
    (hE : ∀ e m', x m = .failed e m' → ∀ f x, E' f x → Missing L E f x) :
    Follows L E W loose top Q' (x >>= f) m (y >>= g) t := by
  refine Matches.bind h (fun a m' b t' hx h => ?_) fun e m' t' hx h => ?_
  · obtain ⟨W', hl, hi, henv, hab⟩ := h
    refine (hq a m' b t' W' hx hl hi henv hab).imp (fun c m'' d t'' _ h => ?_) fun _ _ _ _ h => ?_
    · obtain ⟨W'', hl', hi', henv', hcd⟩ := h
      exact ⟨W'', (hl.loosen nofun).trans hl', hi', henv'.trans henv, hcd⟩
    · exact h.later hl id
  · obtain ⟨⟨W', hl, hi⟩, hfault⟩ := h
    have hgiven : ∀ f x, Missing L E' f x → Missing L E f x :=
      fun f x h => h.elim (hE e m' hx f x) .inr
    exact ⟨⟨W', hl, hi.excuse hgiven⟩, hfault.imp_right fun h => ⟨h.1, h.2.elim⟩⟩

/-- A run behind one that leaves all frames as they are. -/
theorem after {f : α → Eval γ} {g : β → Run δ} (h : Follows L E W Fixed Never Q x m y t)
    (hq : ∀ a m' b t' W', x m = .done a m' → Later Fixed W W' → InStep L E W' m' t' →
      m'.env = m.env → Q W' a b → Follows L E W' loose top Q' (f a) m' (g b) t') :
    Follows L E W loose top Q' (x >>= f) m (y >>= g) t :=
  h.excusing hq fun _ _ _ _ _ => .inl

/-- What is required may be weakened. -/
theorem imp {Q' : World → α → β → Prop} (h : Follows L E W loose top Q x m y t)
    (hl : ∀ f, loose f → loose' f) (ht : top → top')
    (hq : ∀ W' a b, Later loose W W' → Q W' a b → Q' W' a b) :
    Follows L E W loose' top' Q' x m y t := by
  refine Matches.imp h (fun a m' b t' _ h => ?_) fun _ _ _ _ h => h.later (Later.refl W : Later Fixed W W) ht
  obtain ⟨W', hl', hi, henv, hab⟩ := h
  exact ⟨W', hl'.loosen hl, hi, henv, hq W' a b hl' hab⟩

/-- Behind an expression, which leaves all frames as they are. -/
theorem fixed (h : Follows L E W Fixed Never Q x m y t) : Follows L E W loose top Q x m y t :=
  h.imp nofun nofun fun _ _ _ _ h => h

/-- A step behind which only the answer changes. -/
theorem map {Q' : World → γ → δ → Prop} {f : α → γ} {g : β → δ}
    (h : Follows L E W loose top Q x m y t) (hq : ∀ W' a b, Q W' a b → Q' W' (f a) (g b)) :
    Follows L E W loose top Q' (f <$> x) m (g <$> y) t := by
  rw [map_eq_pure_bind, map_eq_pure_bind]
  exact h.bind fun a m' b t' W' _ _ hi _ hab => .pure hi (hq W' a b hab)

/-- A step behind which only the answer of the state changes. -/
theorem give {Q' : World → α → δ → Prop} {g : β → δ} (h : Follows L E W loose top Q x m y t)
    (hq : ∀ W' a b, Later loose W W' → Q W' a b → Q' W' a (g b)) :
    Follows L E W loose top Q' x m (y >>= fun b => Pure.pure (g b)) t := by
  rw [← bind_pure x]
  exact (h.imp (fun _ => id) id fun W' a b hl hab => hq W' a b hl hab).bind
    fun a m' b t' W' _ _ hi _ hab => .pure hi hab

/-- With other frames current in the machine. -/
theorem within {env : Env} (h : Follows L E W loose top Q x { m with env := env } y t) :
    Follows L E W loose top Q (Machine.within env x) m y t := by
  have hrun : ((Action.update fun m => { m with env := env }) >>= fun _ => x : Eval α) m =
      x { m with env := env } := rfl
  unfold Follows Machine.within Action.keeping at *
  dsimp only at h ⊢
  rw [hrun]
  generalize x { m with env := env } = ending at h ⊢
  generalize y t = ending' at h ⊢
  cases h with
  | done h =>
    obtain ⟨W', hl, hi, -, hab⟩ := h
    exact .done ⟨W', hl, hi.within m.env, rfl, hab⟩
  | failed h =>
    obtain ⟨⟨W', hl, hi⟩, hf⟩ := h
    exact .failed ⟨⟨W', hl, hi.within m.env⟩, hf⟩
  | exhausted => exact .exhausted

/-- Within a frame that was not there before, any names may be added. -/
theorem close {f : Nat} (hl : Later loose W W') (hf : W.layer f = none)
    (h : Follows L E W' (· = f) Never Q x m y t) : Follows L E W loose top Q x m y t := by
  refine Matches.imp h (fun a m' b t' _ h => ?_) fun _ _ _ _ h => h.later hl nofun
  obtain ⟨W'', hl', hi, henv, hab⟩ := h
  exact ⟨W'', hl.close hf hl', hi, henv, hab⟩

/-- How the runs stand to each other, if the first was done. -/
theorem of_done (h : Follows L E W loose top Q x m y t) {a : α} {m' : Machine}
    (hx : x m = .done a m') :
    ∃ W' t' b, Later loose W W' ∧ InStep L E W' m' t' ∧ m'.env = m.env ∧ Q W' a b := by
  obtain ⟨b, t', -, W', hw, hi, henv, hq⟩ := Matches.of_done h hx
  exact ⟨W', t', b, hw, hi, henv, hq⟩

/-- From a world that has got larger before the runs start. -/
theorem later (hl : Later loose W W') (h : Follows L E W' loose top Q x m y t) :
    Follows L E W loose top Q x m y t := by
  refine Matches.imp h (fun a m' b t' _ h => ?_) fun _ _ _ _ h => h.later hl id
  obtain ⟨W'', hl', hi, henv, hab⟩ := h
  exact ⟨W'', hl.trans hl', hi, henv, hab⟩

/-- A step of the machine alone. -/
theorem first {a : α} {m' : Machine} {f : α → Eval γ} {z : Run δ} (hx : x m = .done a m')
    (henv : m'.env = m.env) (h : Follows L E W loose top Q' (f a) m' z t) :
    Follows L E W loose top Q' (x >>= f) m z t := by
  unfold Follows at h ⊢
  rw [Action.bind_of_done hx]
  rwa [henv] at h

/-- A step of the state alone. -/
theorem second {b : β} {t' : State} {z : Eval γ} {g : β → Run δ} (hy : y t = .done b t')
    (h : Follows L E W loose top Q' z m (g b) t') : Follows L E W loose top Q' z m (y >>= g) t := by
  unfold Follows at h ⊢
  rwa [Action.bind_of_done hy]

end Follows

end Rules

end Lox.Lexical
