import Lox.Proofs.Lexical.Follows

/-!
  Names, followed.

  The machine finds a name at its recorded distance, the reference in the innermost scope that has it:
  that is the frame and the cell of one variable (`Target`).  So looking up, assigning and declaring a
  name on the machine are followed by the same on cells.

  A name without a recorded distance is a global one, and the walk has found it in no scope; then the reference
  finds it in none either, and both go to the globals.  In both cases the step on the machine is the step on
  one frame (`lookUp_eq`, `assign_eq`), and what is left to be compared are a slot and a cell.  There are three
  kinds of either: with a value, without one, and not there at all, which on the side of the cells means
  empty.  They go together, so the two give the same value or the same error.
-/

namespace Lox

/-- The frame at a distance is the one at that place of the chain. -/
theorem Env.Has.ancestor? {env : Env} {fs : List Nat} (h : env.Has fs) {d f : Nat}
    (hd : fs[d]? = some f) : env.ancestor? d = some f := by
  have hlt := (List.getElem?_eq_some_iff.mp hd).1
  rw [Env.ancestor?, h, List.getElem?_append_left hlt, hd]

namespace Lexical

open Scope

/-- The frame in which the machine finds a name: at the distance that the walk finds, or that of the
    globals. -/
def Target (env : Env) (as : List Scope) (x : String) (f : Nat) : Prop :=
  match as.findIdx? (·.contains x) with
  | some d => env.ancestor? d = some f
  | none => f = Env.global.frame

section Names

variable {L : Lore} {E : Nat → String → Prop} {W : World} {m : Machine} {t : State} {env : Env}
  {fs : List Nat} {ls : List Layer} {as : List Scope} {ts : Scopes} {x : String} {f : Nat}

/-- There is a frame in which the machine finds the name. -/
theorem Linked.target (hl : Linked W fs ls as ts) (hc : env.Has fs) (x : String) :
    ∃ f, Target env as x f := by
  unfold Target
  cases hd : as.findIdx? (·.contains x) with
  | some d =>
    obtain ⟨f, -, -, hf, -⟩ := hl.find_some hd
    exact ⟨f, hc.ancestor? hf⟩
  | none => exact ⟨_, rfl⟩

/-- The name means a variable of the frame and the cell that stands for it, or it means a global. -/
theorem Target.cases (ht : Target env as x f) (hl : Linked W fs ls as ts) (hc : env.Has fs) :
    (∃ d ℓ c, as.findIdx? (·.contains x) = some d ∧ ls[d]? = some ℓ ∧ W.layer f = some ℓ ∧
      find? ts x = some c ∧ W.cell f x = some c) ∨
    as.findIdx? (·.contains x) = none ∧ f = Env.global.frame ∧ find? ts x = none := by
  unfold Target at ht
  cases hd : as.findIdx? (·.contains x) with
  | some d =>
    rw [hd] at ht
    obtain ⟨g, ℓ, c, hg, hℓ, hlayer, hfind, hcell⟩ := hl.find_some hd
    cases (hc.ancestor? hg).symm.trans ht
    exact .inl ⟨d, ℓ, c, rfl, hℓ, hlayer, hfind, hcell⟩
  | none =>
    rw [hd] at ht
    exact .inr ⟨rfl, ht, hl.find_none hd⟩

/-- The variable is the same on both sides. -/
theorem Agree.slot {s : Store} (h : Agree L E W s t) (hl : Linked W fs ls as ts)
    (hc : env.Has fs) (ht : Target env as x f) :
    SlotAlike L.visited W (s.slot? f x) (t.slot? ts x) := by
  rcases ht.cases hl hc with ⟨d, ℓ, c, -, -, -, hfind, hcell⟩ | ⟨-, rfl, hfind⟩
  · obtain ⟨cell, hget, halike, -⟩ := h.named f x c hcell
    have hslot : t.slot? ts x = cell.slot := by simp [State.slot?, hfind, hget]
    rw [hslot]
    exact halike
  · rw [State.slot?, hfind]
    exact h.globals x

/-- The variable gets the same value on both sides. -/
theorem Agree.put {E' : Nat → String → Prop} {s : Store} (h : Agree L E' W s t)
    (hl : Linked W fs ls as ts) (hc : env.Has fs) (hcover : Covers as ls)
    (hx : x ≠ "this" ∧ x ≠ "super") (ht : Target env as x f) {slot : Option Value}
    {slot' : Option (Value Scopes)} (hslot : Option.Rel (Alike L.visited W) slot slot')
    (hE : ∀ g y, E' g y → E g y ∨ f = g ∧ x = y)
    (hglobal : find? ts x = none → ∀ g y, E' g y → E g y)
    (hexcused : ∀ g y, Unsupplied L.lived g y → E g y) :
    Agree L E (W.fill f x) (s.put f x slot) (t.put ts x slot') := by
  rcases ht.cases hl hc with ⟨d, ℓ, c, hd, hℓ, hlayer, hfind, hcell⟩ | ⟨-, rfl, hfind⟩
  · rw [State.put, hfind]
    refine h.fill hcell (.put (h.frame_lt hcell).2 x slot) hslot (fun ℓ' hℓ' => ?_) hE hexcused
    cases hlayer.symm.trans hℓ'
    obtain ⟨hlt, hcontains, -⟩ := List.findIdx?_eq_some_iff_getElem.mp hd
    obtain ⟨hlt', rfl⟩ := List.getElem?_eq_some_iff.mp hℓ
    have hfits : Fits as[d] ls[d] := (List.forall₂_iff_get.mp hcover).2 d hlt hlt'
    have hbody := hfits.body_of_contains hx hcontains
    rw [hbody]
    trivial
  · rw [State.put, hfind]
    exact (h.excuse (hglobal hfind)).global hslot

end Names

/-! ## Looking up and assigning

  A name that the resolver has found is in the frame at its distance, and this frame is the one whose cell the
  scopes name; any other name is a global on both sides. -/

/-- To read at a distance is to read in the frame there. -/
theorem getAt_eq_get {env : Env} {d f : Nat} (h : env.ancestor? d = some f) (x : String) :
    Store.getAt env d x = Store.get f x := by
  simp only [Store.getAt, Store.ancestor, h]
  rfl

/-- To assign at a distance is to assign in the frame there. -/
theorem assignAt_eq_assign {env : Env} {d f : Nat} (h : env.ancestor? d = some f) (x : String)
    (value : Value) : Store.assignAt env d x value = Store.assign f x value := by
  simp only [Store.assignAt, Store.ancestor, h]
  rfl

/-- A slot with a value is read. -/
theorem get_of_slot {s : Store} {f : Nat} {x : String} {v : Value}
    (h : s.slot? f x = some (some v)) : Store.get f x s = .done v s := by
  simp only [Store.get, h]

/-- A step that leaves the store as it is leaves the machine as it is. -/
theorem atToken_done {α : Type} {token : Token} {step : StoreStep α} {m : Machine} {a : α}
    (h : step m.store = .done a m.store) : Machine.atToken token step m = .done a m := by
  simp only [Machine.atToken, h]

/-- How a slot of a frame is read. -/
theorem atToken_get (token : Token) (f : Nat) (x : String) (m : Machine) :
    Machine.atToken token (Store.get f x) m =
      match m.store.slot? f x with
      | some (some value) => .done value m
      | some none => .failed ⟨token, .notInitialized⟩ m
      | none => .failed ⟨token, .undefinedVariable⟩ m := by
  obtain ⟨s, env, r, host⟩ := m
  simp only [Machine.atToken, Store.get]
  rcases hs : s.slot? f x with _ | _ | value <;> rfl

/-- How a slot of a frame is written. -/
theorem atToken_assign (token : Token) (f : Nat) (x : String) (value : Value) (m : Machine) :
    Machine.atToken token (Store.assign f x value) m =
      if (m.store.slot? f x).isSome then
        .done () { m with store := m.store.put f x (some value) }
      else .failed ⟨token, .undefinedVariable⟩ m := by
  obtain ⟨s, env, r, host⟩ := m
  simp only [Machine.atToken, Store.assign]
  cases (s.slot? f x).isSome <;> rfl

/-- How a slot of a frame is declared. -/
theorem atToken_define (token : Token) (f : Nat) (x : String) (slot : Option Value) (m : Machine) :
    Machine.atToken token (Store.define f x slot) m =
      if (m.store.slot? f x).isSome then .failed ⟨token, .alreadyDefined⟩ m
      else .done () { m with store := m.store.put f x slot } := by
  obtain ⟨s, env, r, host⟩ := m
  simp only [Machine.atToken, Store.define]
  cases (s.slot? f x).isSome <;> rfl

/-- Looking up a name changes nothing. -/
theorem lookUp_state {ref : Ref} {m m' : Machine} {v : Value}
    (h : Machine.lookUp ref m = .done v m') : m' = m := by
  have hget : ∀ f, Machine.atToken ref.name (Store.get f ref.name.lexeme) m = .done v m' →
      m' = m := by
    intro f hf
    rw [atToken_get] at hf
    split at hf
    · cases hf
      rfl
    · cases hf
    · cases hf
  have hrun : Machine.lookUp ref m =
      (match m.resolution[ref.id]? with
      | some d => Machine.atToken ref.name (Store.getAt m.env d ref.name.lexeme)
      | none => Machine.atToken ref.name (Store.get Env.global.frame ref.name.lexeme)) m := rfl
  rw [hrun] at h
  -- With a distance the frame there is read, without one that of the globals.
  cases hd : m.resolution[ref.id]? with
  | none =>
    rw [hd] at h
    exact hget _ h
  | some d =>
    rw [hd] at h
    cases ha : m.env.ancestor? d with
    | some f =>
      simp only [getAt_eq_get ha] at h
      exact hget f h
    | none =>
      simp only [Store.getAt, Store.ancestor, ha] at h
      cases h

section Occurrences

variable {L : Lore} {E : Nat → String → Prop} {W : World} {m : Machine} {t : State}
  {fs : List Nat} {ls : List Layer} {w : Walk} {ts : Scopes} {ref : Ref} {f : Nat}

/-- The machine looks a name up in the frame in which it finds it. -/
theorem lookUp_eq (hr : Recorded m.resolution w ref)
    (ht : Target m.env w.scopes ref.name.lexeme f) :
    Machine.lookUp ref m = Machine.atToken ref.name (Store.get f ref.name.lexeme) m := by
  have hrun : Machine.lookUp ref m =
      (match m.resolution[ref.id]? with
      | some d => Machine.atToken ref.name (Store.getAt m.env d ref.name.lexeme)
      | none => Machine.atToken ref.name (Store.get Env.global.frame ref.name.lexeme)) m := rfl
  rw [hrun, hr, Walk.distance?]
  unfold Target at ht
  split at ht
  · rename_i d hd
    rw [hd]
    exact congrArg (Machine.atToken ref.name · m) (getAt_eq_get ht _)
  · rename_i hd
    rw [hd, ht]

/-- Which frame an assignment concerns. -/
theorem assign_eq (hr : Recorded m.resolution w ref)
    (ht : Target m.env w.scopes ref.name.lexeme f) (value : Value) :
    Machine.assign ref value m =
      Machine.atToken ref.name (Store.assign f ref.name.lexeme value) m := by
  have hrun : Machine.assign ref value m =
      (match m.resolution[ref.id]? with
      | some d => Machine.atToken ref.name (Store.assignAt m.env d ref.name.lexeme value)
      | none => Machine.atToken ref.name (Store.assign Env.global.frame ref.name.lexeme value)) m :=
    rfl
  rw [hrun, hr, Walk.distance?]
  unfold Target at ht
  split at ht
  · rename_i d hd
    rw [hd]
    exact congrArg (Machine.atToken ref.name · m) (assignAt_eq_assign ht _ value)
  · rename_i hd
    rw [hd, ht]

/-- A name is looked up in the frame in which it is found, and in the scopes. -/
theorem get_follows (hi : InStep L E W m t) (hl : Linked W fs ls w.scopes ts) {env : Env}
    (hc : env.Has fs) {name : Token} (ht : Target env w.scopes name.lexeme f) :
    Follows L E W Fixed Never (Alike L.visited)
      (Machine.atToken name (Store.get f name.lexeme)) m (lookUp ts name) t := by
  unfold Follows
  rw [atToken_get, lookUp]
  have hslot := hi.agree.slot hl hc ht
  generalize m.store.slot? f name.lexeme = slot at hslot
  generalize t.slot? ts name.lexeme = slot' at hslot
  cases hslot with
  | none => exact .failed (.here hi (by decide))
  | some h =>
    cases h with
    | none => exact .failed (.here hi (by decide))
    | some ha => exact .done ⟨W, .refl W, hi, rfl, ha⟩

/-- Looking up a name gives the same value or the same error. -/
theorem lookUp_follows (hi : InStep L E W m t) (hl : Linked W fs ls w.scopes ts)
    (hc : m.env.Has fs) (hr : Recorded L.resolution w ref) :
    Follows L E W Fixed Never (Alike L.visited) (Machine.lookUp ref) m (lookUp ts ref.name) t := by
  obtain ⟨f, ht⟩ := hl.target hc ref.name.lexeme
  have hget := get_follows hi hl hc ht
  unfold Follows at hget ⊢
  rwa [lookUp_eq (hi.resolution ▸ hr) ht]

/-- A write concerns no host. -/
theorem put_host (t : State) (ts : Scopes) (x : String) (slot : Option (Value Scopes)) :
    (t.put ts x slot).host = t.host := by
  unfold State.put
  split <;> rfl

/-- Assigning to a name in the frame in which it is found, and in the scopes. -/
theorem put_follows (hi : InStep L E W m t) (hl : Linked W fs ls w.scopes ts) {env : Env}
    (hc : env.Has fs) (hcover : Covers w.scopes ls) {name : Token} (hn : name.Plain)
    (ht : Target env w.scopes name.lexeme f) {v : Value} {r : Value Scopes}
    (ha : Alike L.visited W v r) :
    Follows L E W Fixed Never (fun _ _ _ => True)
      (Machine.atToken name (Store.assign f name.lexeme v)) m (assign ts name r) t := by
  unfold Follows
  rw [atToken_assign, assign]
  have hslot := hi.agree.slot hl hc ht
  have hput := hi.agree.put hl hc hcover ⟨hn.not_this, hn.not_super⟩ ht (.some ha)
    (fun _ _ h => .inl h) (fun _ _ _ h => h) hi.agree.excused
  -- A slot that is there is filled already, or is a global.
  have hlater : (m.store.slot? f name.lexeme).isSome = true →
      Later Fixed W (W.fill f name.lexeme) := fun hsome => by
    by_cases hf : f = 0
    · exact World.later_fill_of_none (hf ▸ hi.agree.layer_global) _
    · rw [World.fill_eq (hi.agree.filled f _ hf ▸ hsome)]
      exact .refl W
  generalize m.store.slot? f name.lexeme = slot at hslot hlater
  generalize t.slot? ts name.lexeme = slot' at hslot
  cases hslot with
  | none => exact .failed (.here hi (by decide))
  | some _ =>
    exact .done ⟨_, hlater rfl, ⟨hput, hi.host.trans (put_host t ts _ _).symm, hi.resolution⟩, rfl,
      trivial⟩

/-- Assigning to a name has the same effect or the same error. -/
theorem assign_follows (hi : InStep L E W m t) (hl : Linked W fs ls w.scopes ts)
    (hc : m.env.Has fs) (hcover : Covers w.scopes ls) (hn : ref.name.Plain)
    (hr : Recorded L.resolution w ref) {v : Value} {r : Value Scopes}
    (ha : Alike L.visited W v r) :
    Follows L E W Fixed Never (fun _ _ _ => True) (Machine.assign ref v) m
      (assign ts ref.name r) t := by
  obtain ⟨f, ht⟩ := hl.target hc ref.name.lexeme
  have hput := put_follows hi hl hc hcover hn ht ha
  unfold Follows at hput ⊢
  rwa [assign_eq (hi.resolution ▸ hr) ht]

end Occurrences

end Lexical

end Lox
