import Lox.Proofs.Lexical.Poised

/-!
  What can go wrong from a poised moment on.

  Errors that are ruled out do not occur (`Poised.fault`): what would raise them is excluded by what was
  required of the program before it ran.  A name with a recorded distance is not found only if it is
  excused (`Poised.missing`).

  Most of it comes from the reference for nothing.  A run that follows one of the reference fails only as this
  does or with an excuse, and none of the two is among the errors that are ruled out, because the
  reference has no such errors (`Follows.no_fault`).  What remains are the operations that are no runs of an
  expression or a statement: looking up a name, assigning to one, and fetching a method by `super`.
-/

namespace Lox

/-- Statements are about to be executed in the frame of the globals. -/
def Moment.AtTopLevel : Moment → Prop
  | ⟨_, .execute _, m⟩ | ⟨_, .executeAll _, m⟩ | ⟨_, .program _ _, m⟩ =>
    m.env.frame = Env.global.frame
  | _ => False

/-- The occurrence of a name that is about to be looked up or assigned to. -/
def Activity.sought? : Activity → Option Ref
  | .lookUp ref | .assign ref _ => some ref
  | _ => none

namespace Lexical

open Scope

section Faults

variable {L : Lore} {E : Nat → String → Prop} {W : World} {m m' : Machine} {t : State}
  {ctx : Context} {w : Walk} {ls : List Layer} {fs : List Nat} {ts : Scopes} {μ : Moment}
  {ref : Ref} {error : RuntimeError}

/-- An error of a run that is followed. -/
theorem Follows.fault {α β : Type} {loose : Nat → Prop} {top : Prop} {Q : World → α → β → Prop}
    {x : Eval α} {y : Run β} (h : Follows L E W loose top Q x m y t)
    (hx : x m = .failed error m') :
    error.fault ∉ ruledOut ∨ error.fault = .alreadyDefined ∧ top := by
  obtain ⟨_, -, hbreaks⟩ := Matches.of_failed h hx
  exact hbreaks.fault

/-- A run that follows another has no error that is ruled out. -/
theorem Follows.no_fault {α β : Type} {loose : Nat → Prop} {Q : World → α → β → Prop} {x : Eval α}
    {y : Run β} (h : Follows L E W loose Never Q x m y t) (hx : x m = .failed error m') :
    error.fault ∉ ruledOut :=
  (h.fault hx).resolve_right And.right

/-- An assignment can only fail because the name is not declared. -/
theorem Occurs.assign_fault (h : Occurs L E m w ls ref) {v : Value}
    (hx : Machine.assign ref v m = .failed error m') : error.fault = .undefinedVariable := by
  obtain ⟨⟨W, t, fs, ts, hi, hl, hc⟩, hr⟩ := h
  obtain ⟨f, ht⟩ := hl.target hc ref.name.lexeme
  rw [assign_eq (hi.resolution ▸ hr) ht, atToken_assign] at hx
  split at hx
  · cases hx
  · cases hx
    rfl

/-- Outside all scopes the current frame is that of the globals. -/
theorem head_global (hc : m.env.Has fs) (hfs : fs = []) : m.env.frame = Env.global.frame := by
  subst hfs
  exact List.head_eq_of_cons_eq hc

/-- **Errors that are ruled out do not occur**, but that a global is declared once more. -/
theorem Poised.fault (hL : L.Closed) (h : Poised L E μ) (hlived : L.lived μ) (hf : μ.Fails error) :
    error.fault ∉ ruledOut ∨ error.fault = .alreadyDefined ∧ μ.AtTopLevel := by
  -- Statements can fail at a global that is declared again; nothing else fails with a fault that is ruled
  -- out.
  cases h with
  | evaluate h =>
    obtain ⟨m', hx⟩ := hf
    exact .inl (((faithful hL _).evaluate h hlived).no_fault hx)
  | evaluateAll h =>
    obtain ⟨m', hx⟩ := hf
    exact .inl (((faithful hL _).evaluateAll h hlived).no_fault hx)
  | call hi ha hg =>
    obtain ⟨m', hx⟩ := hf
    exact .inl (((faithful hL _).call hi ha hg hlived).no_fault hx)
  | callClosure hi hb hg =>
    obtain ⟨m', hx⟩ := hf
    exact .inl (((faithful hL _).callClosure hi hb hg hlived).no_fault hx)
  | execute h he =>
    obtain ⟨m', hx⟩ := hf
    exact (((faithful hL _).execute h he hlived).fault hx).imp_right fun htop =>
      ⟨htop.1, head_global h.chain htop.2⟩
  | executeAll h he =>
    obtain ⟨m', hx⟩ := hf
    exact (((faithful hL _).executeAll h he hlived).fault hx).imp_right fun htop =>
      ⟨htop.1, head_global h.chain htop.2⟩
  | program h hlast =>
    obtain ⟨m', hx⟩ := hf
    exact ((runAll_follows hL _ h hlast hlived).fault hx).imp_right fun htop =>
      ⟨htop.1, head_global h.chain rfl⟩
  | lookUp h =>
    obtain ⟨m', hx⟩ := hf
    obtain ⟨⟨W, t, fs, ts, hi, hl, hc⟩, hr⟩ := h
    exact .inl ((lookUp_follows hi hl hc hr).no_fault hx)
  | assign h =>
    obtain ⟨m', hx⟩ := hf
    rw [h.assign_fault hx]
    exact .inl (by decide)
  | bind _ _ _ =>
    obtain ⟨m', hx⟩ := hf
    cases hx

/-- Where `super` stands, only the method that it names may be missing. -/
theorem Poised.super_fault (hL : L.Closed) {n : Nat} {method : Token}
    (h : Poised L E ⟨n, .evaluate (.super ref method), m⟩)
    (hf : Moment.Fails ⟨n, .evaluate (.super ref method), m⟩ error) :
    error.fault = .undefinedProperty := by
  obtain ⟨m', hx⟩ := hf
  cases h with
  | evaluate h =>
    cases n with
    | zero => cases hx
    | succ n => exact superMethod_fault hL h.inStep h.visited h.linked h.chain hx

/-! ## Names that are not found -/

/-- A name with a recorded distance is excused if the frame at that distance lacks it. -/
theorem Occurs.missing (h : Occurs L E m w ls ref) {d : Nat}
    (hd : m.resolution[ref.id]? = some d) :
    ∃ f, m.env.ancestor? d = some f ∧ Target m.env w.scopes ref.name.lexeme f ∧
      Recorded m.resolution w ref ∧
      (m.store.slot? f ref.name.lexeme = none → E f ref.name.lexeme) := by
  obtain ⟨⟨W, t, fs, ts, hi, hl, hc⟩, hr⟩ := h
  rw [← hi.resolution] at hr
  have hfound : w.scopes.findIdx? (·.contains ref.name.lexeme) = some d := hr.symm.trans hd
  obtain ⟨f, ht⟩ := hl.target hc ref.name.lexeme
  have hancestor := ht
  rw [Target, hfound] at hancestor
  refine ⟨f, hancestor, ht, hr, fun hnone => ?_⟩
  rcases ht.cases hl hc with ⟨_, _, c, -, -, -, -, hcell⟩ | ⟨hnot, -, -⟩
  · obtain ⟨cell, -, halike, hempty⟩ := hi.agree.named f _ c hcell
    rw [hnone] at halike
    generalize hslot : cell.slot = slot at halike
    cases halike with
    | none => exact hempty hslot
  · rw [hfound] at hnot
    cases hnot

/-- A name that is looked up and not found is not in its frame. -/
theorem lookUp_missing {f : Nat} (hr : Recorded m.resolution w ref)
    (ht : Target m.env w.scopes ref.name.lexeme f)
    (hx : Machine.lookUp ref m = .failed error m') (he : error.fault = .undefinedVariable) :
    m.store.slot? f ref.name.lexeme = none := by
  rw [lookUp_eq hr ht, atToken_get] at hx
  cases hs : m.store.slot? f ref.name.lexeme with
  | none => rfl
  | some slot =>
    rw [hs] at hx
    cases slot with
    | none =>
      cases hx
      cases he
    | some value => cases hx

/-- Nor is one that is assigned to and not found. -/
theorem assign_missing {f : Nat} {v : Value} (hr : Recorded m.resolution w ref)
    (ht : Target m.env w.scopes ref.name.lexeme f)
    (hx : Machine.assign ref v m = .failed error m') : m.store.slot? f ref.name.lexeme = none := by
  rw [assign_eq hr ht, atToken_assign] at hx
  cases hs : m.store.slot? f ref.name.lexeme with
  | none => rfl
  | some slot =>
    rw [hs] at hx
    cases hx

/-- **A name with a recorded distance is not found only if it is excused** in the frame at that
    distance. -/
theorem Poised.missing (h : Poised L E μ) (hs : μ.activity.sought? = some ref) {d : Nat}
    (hd : μ.machine.resolution[ref.id]? = some d) (hf : μ.Fails error)
    (he : error.fault = .undefinedVariable) :
    ∃ f, μ.machine.env.ancestor? d = some f ∧ E f ref.name.lexeme := by
  cases h with
  | lookUp h =>
    cases hs
    obtain ⟨m', hx⟩ := hf
    obtain ⟨f, hf, ht, hr, hmissing⟩ := h.missing hd
    exact ⟨f, hf, hmissing (lookUp_missing hr ht hx he)⟩
  | assign h =>
    cases hs
    obtain ⟨m', hx⟩ := hf
    obtain ⟨f, hf, ht, hr, hmissing⟩ := h.missing hd
    exact ⟨f, hf, hmissing (assign_missing hr ht hx)⟩
  | evaluate _ | evaluateAll _ | call _ _ _ | callClosure _ _ _ | execute _ _ | executeAll _ _
  | program _ _ | bind _ _ _ => cases hs

end Faults

end Lexical

end Lox
