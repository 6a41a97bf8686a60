import Lox.Proofs.Grammar.Progress
import Lox.Proofs.Runs.Laws

/-!
  Runs move forward.

  `Later` is what lies between a machine and a later one of the same run: the same frames are current, nothing
  is learnt about occurrences of names, and what has been printed stays printed.  Everything that the evaluator
  does moves so, whether it succeeds or fails (`forward`).

  An action is `Forward` if every machine that it leaves is later, however it ends.  Such actions can be put in
  a row (`Forward.bind`), and the small steps of the evaluator are of this kind: a step of the store leaves all
  else alone, a native function can print, and what runs inside other frames comes back to the ones before
  (`Forward.within`).  So it is a law of all runs (`forward_closed`), of which `Closed.rules` does the
  induction.
-/

namespace Lox

/-- The second machine can be reached from the first by a step that has come to its end. -/
structure Machine.Later (m m' : Machine) : Prop where
  env : m'.env = m.env
  resolution : m'.resolution = m.resolution
  printed : ∃ more, m'.host.printed = m.host.printed ++ more

namespace Machine.Later

/-- A machine is later than itself. -/
theorem refl (m : Machine) : Later m m := ⟨rfl, rfl, #[], by simp⟩

/-- Later by steps is later. -/
theorem trans {m m' m'' : Machine} (h : Later m m') (h' : Later m' m'') : Later m m'' := by
  obtain ⟨more, hmore⟩ := h.printed
  obtain ⟨more', hmore'⟩ := h'.printed
  exact ⟨h'.env.trans h.env, h'.resolution.trans h.resolution, more ++ more', by
    rw [hmore', hmore, Array.append_assoc]⟩

/-- A change of the store is one of nothing else. -/
theorem store {m : Machine} (store : Store) : Later m { m with store := store } :=
  ⟨rfl, rfl, #[], by simp⟩

end Machine.Later

namespace Eval

open Machine

/-- However the action ends, it leaves a later machine. -/
def Forward {α : Type} (x : Eval α) : Prop := ∀ m m', (x m).state? = some m' → Later m m'

section Steps

variable {α β : Type}

/-- One action and then another, unless the first one fails. -/
theorem Forward.bind {x : Eval α} {f : α → Eval β} (hx : Forward x) (hf : ∀ a, Forward (f a)) :
    Forward (x >>= f) := by
  intro m m' h
  obtain ⟨e, hrun⟩ | ⟨a, t, hrun, hf'⟩ := Action.state?_bind h
  · exact hx m m' (by rw [hrun]; rfl)
  · exact (hx m t (by rw [hrun]; rfl)).trans (hf a t m' hf')

/-- A step on variables may change the store, and leaves all else. -/
theorem Forward.atToken (token : Token) (step : StoreStep α) : Forward (atToken token step) := by
  rintro ⟨store, env, found, host⟩ m' h
  rw [Machine.atToken] at h
  cases hstep : step store with
  | done a store' =>
    rw [hstep] at h
    cases h
    exact .store store'
  | failed fault store' =>
    rw [hstep] at h
    cases h
    exact .store store'
  | exhausted =>
    rw [hstep] at h
    cases h

/-- What the store makes is nothing else. -/
theorem Forward.make (step : Store → α × Store) : Forward (make step) := by
  intro m m' h
  cases h
  exact .store _

/-- Only `print` prints, and it prints behind what there is. -/
theorem Forward.callNative (token : Token) (native : Native) (given : List Value) :
    Forward (callNative token native given) := by
  rintro ⟨store, env, found, host⟩ m' h
  have hprinted : ∃ more, (nativeAnswer given host native).2.printed = host.printed ++ more := by
    cases native with
    | clock => exact ⟨#[], by simp [nativeAnswer, Host.tick]⟩
    | input =>
      refine ⟨#[], ?_⟩
      unfold nativeAnswer
      cases Text.decode host.line <;> simp [Host.skipLine]
    | print =>
      unfold nativeAnswer
      cases host.refusal? with
      | none => exact ⟨#[_], rfl⟩
      | some refusal => exact ⟨#[_], rfl⟩
  rw [Machine.callNative] at h
  generalize nativeAnswer given host native = answer at h hprinted
  obtain ⟨result, host'⟩ := answer
  cases result with
  | ok value =>
    cases h
    exact ⟨rfl, rfl, hprinted⟩
  | error fault =>
    cases h
    exact ⟨rfl, rfl, hprinted⟩

/-- Other frames are current only meanwhile. -/
theorem state?_within {env : Env} {x : Eval α} {m u : Machine} (h : (within env x m).state? = some u) :
    ∃ t, (x { m with env := env }).state? = some t ∧ u = { t with env := m.env } := by
  unfold Machine.within Action.keeping at h
  rw [Action.bind_of_done (show Action.update _ m = .done () { m with env := env } from rfl)] at h
  generalize x { m with env := env } = ending at h
  cases ending with
  | done a t =>
    cases h
    exact ⟨t, rfl, rfl⟩
  | failed e t =>
    cases h
    exact ⟨t, rfl, rfl⟩
  | exhausted => cases h

/-- The frames that were current before are put back. -/
theorem Forward.within (env : Env) {x : Eval α} (hx : Forward x) : Forward (within env x) := by
  intro m u h
  obtain ⟨t, ht, rfl⟩ := state?_within h
  exact ⟨rfl, (hx _ _ ht).resolution, (hx _ _ ht).printed⟩

end Steps

/-- Every step moves forward. -/
theorem forward_closed : Closed @Forward where
  pure a := by
    intro m m' h
    cases h
    exact .refl m
  bind := Forward.bind
  outOfFuel := nofun
  read view := by
    intro m m' h
    cases h
    exact .refl m
  failAt token fault := by
    intro m m' h
    cases h
    exact .refl m
  get token frame name := .atToken token _
  assign token frame name value := .atToken token _
  define token frame name slot := .atToken token _
  push env frame := .make _
  newObject := .make _
  newIdentity := .make _
  setField object name value := by
    intro m m' h
    cases h
    exact .store _
  callNative := .callNative
  within := .within

/-- **Everything that the evaluator does moves forward.** -/
theorem forward (fuel : Nat) : Rules @Forward fuel := forward_closed.rules fuel

end Eval

end Lox
