import Lox.Proofs.Counting.Semantics
import Lox.Proofs.Values

/-!
  Closures and states that are lowered.

  A closure is lowered to another one if its text is lowered to that of the other, and both see the same
  names (`Lowered`).  Scopes without names do not count (`visible`): they are what the blocks leave behind
  with which counting loops are written.  Two states are beside each other if they have the same places,
  with values whose closures are lowered (`Beside`).

  A closure of the one side keeps its text with the loops, of which the other side has the lowered text in
  its declaration.  What is seen of a function without running it, its name and whether it is an
  initializer, is the same on both sides (`Lowered.displayName_eq`).

  Declarations look at the innermost scope even if it has no names, so for them equal visible scopes are
  not enough: `Level` asks for the same innermost scope, or for the top level on both sides.
-/

namespace Lox

namespace Counting

/-! ## Scopes -/

/-- The scopes that have names. -/
def visible (scopes : Scopes) : Scopes := scopes.filter (!·.entries.isEmpty)

/-- Another scope inside, with names or without. -/
theorem visible_cons {scopes scopes' : Scopes} (h : visible scopes = visible scopes') (scope : Table Nat) :
    visible (scope :: scopes) = visible (scope :: scopes') := by
  simp only [visible, List.filter_cons] at h ⊢
  rw [h]

/-- Only in scopes with names a name is found. -/
theorem find?_visible (scopes : Scopes) (name : String) :
    Lexical.find? (visible scopes) name = Lexical.find? scopes name := by
  induction scopes with
  | nil => rfl
  | cons scope outer ih =>
    obtain ⟨entries⟩ := scope
    cases entries with
    | nil => exact ih
    | cons entry entries =>
      show Lexical.find? (⟨entry :: entries⟩ :: visible outer) name = _
      simp only [Lexical.find?, List.findSome?_cons] at ih ⊢
      rw [ih]

/-- Where the same scopes are visible every name means the same cell. -/
theorem find?_eq {scopes scopes' : Scopes} (h : visible scopes = visible scopes') (name : String) :
    Lexical.find? scopes' name = Lexical.find? scopes name := by
  rw [← find?_visible, ← h, find?_visible]

/-- The places are the same, as far as declarations go: both at top level, or in the same innermost
    scope, with the same scopes with names around it. -/
inductive Level : Scopes → Scopes → Prop where
  | top : Level [] []
  | inner (scope : Table Nat) {outer outer' : Scopes} :
    visible outer = visible outer' → Level (scope :: outer) (scope :: outer')

namespace Level

variable {scopes scopes' : Scopes}

/-- Places that are the same for declarations are the same for looking names up. -/
theorem visible (h : Level scopes scopes') : visible scopes = visible scopes' := by
  cases h with
  | top => rfl
  | inner scope h => exact visible_cons h scope

/-- Both are at top level or neither is. -/
theorem isEmpty_eq (h : Level scopes scopes') : scopes'.isEmpty = scopes.isEmpty := by
  cases h <;> rfl

end Level

/-! ## Closures and states -/

/-- The closure sees the same names as the other, and its text is lowered to that of the other. -/
structure Lowered (c : Closure Sight) (c' : Closure Scopes) : Prop where
  header : c.declaration = c.env.text.header
  text : c'.declaration = c.env.text.lower
  scopes : visible c.env.scopes = visible c'.env
  isInitializer : c'.isInitializer = c.isInitializer

/-- A closure that is made of a text, in scopes where the same are visible. -/
theorem Lowered.close (text : Function) {scopes scopes' : Scopes} (h : visible scopes = visible scopes')
    (isInitializer : Bool) :
    Lowered (close text scopes isInitializer) ⟨text.lower, scopes', isInitializer⟩ :=
  ⟨rfl, rfl, h, rfl⟩

/-- Lowering a function does not change its name. -/
theorem Function.displayName_lower (f : Function) : f.lower.displayName = f.header.displayName := by
  cases f
  rfl

/-- The name by which a function is shown is the same on both sides. -/
theorem Lowered.displayName_eq (c : Closure Sight) (c' : Closure Scopes) (h : Lowered c c') :
    c'.declaration.displayName = c.declaration.displayName := by
  rw [h.text, h.header, Function.displayName_lower]

/-- Values with closures that are lowered to each other. -/
abbrev Like : Value Sight → Value Scopes → Prop := Value.Related Lowered Lowered

/-- Variables that hold such values. -/
abbrev SlotLike : Option (Option (Value Sight)) → Option (Option (Value Scopes)) → Prop :=
  Option.Rel (Option.Rel Like)

/-- The states have the same places, with values that are alike. -/
structure Beside (s : State) (r : Lexical.State) : Prop where
  cells : ArraysRelated (fun cell cell' => SlotLike cell cell'.slot) s.cells r.cells
  globals : Table.Related (Option.Rel Like) s.globals r.globals
  objects : ArraysRelated (Table.Related Like) s.objects r.objects
  nextIdentity : r.nextIdentity = s.nextIdentity
  host : r.host = s.host

namespace Beside

variable {s : State} {r : Lexical.State} {scopes scopes' : Scopes}

/-- A name holds values that are alike, be it a variable in a cell or a global. -/
theorem slot? (h : Beside s r) (hv : visible scopes = visible scopes') (name : String) :
    SlotLike (s.slot? scopes name) (r.slot? scopes' name) := by
  unfold State.slot? Lexical.State.slot?
  rw [find?_eq hv]
  cases Lexical.find? scopes name with
  | none => exact h.globals name
  | some cell => exact related_bind (h.cells cell) fun _ _ hcell => hcell

/-- A name is given values that are alike, in its cell or among the globals. -/
theorem put (h : Beside s r) (hv : visible scopes = visible scopes') (name : String)
    {slot : Option (Value Sight)} {slot' : Option (Value Scopes)} (hslot : Option.Rel Like slot slot') :
    Beside (s.put scopes name slot) (r.put scopes' name slot') := by
  unfold State.put Lexical.State.put
  rw [find?_eq hv]
  cases Lexical.find? scopes name with
  | none => exact ⟨h.cells, h.globals.insert name hslot, h.objects, h.nextIdentity, h.host⟩
  | some cell =>
    have hdeclared : SlotLike (some slot) (Lexical.Cell.declared slot').slot := by
      cases hslot with
      | none => exact .some .none
      | some hv => exact .some (.some hv)
    exact ⟨h.cells.setIfInBounds cell hdeclared, h.globals, h.objects, h.nextIdentity, h.host⟩

end Beside

end Counting

end Lox
