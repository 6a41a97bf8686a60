import Mathlib.Data.List.Forall2
import Mathlib.Data.Option.Basic
import Lox.Machine
import Lox.Operator

/-!
  Values that are related.

  Two values are related if they are the same, but for the closures in them: those of functions are related
  in one way and those of the methods of classes, which are still to be bound to an instance, in another.
  The functions of the two may see different things.  If related closures have the same name then related
  values show the same.  To operators and native functions related values mean the same, as no closure is
  looked into by them.

  Several developments compare two runs of the same program: that by distances with that by scopes, that of
  a program with that of a copy or with renamed variables.  They differ in what a closure is and agree in
  everything else, so what they have in common is said here, once, for any two relations: how tables and
  arrays are related and which steps keep them so, what related values have in common (truth, text, sameness),
  and that every operator, given related values, fails alike on both sides or gives related values again.
  No step here depends on what the relations are.
-/

namespace Lox

/-- The tables have the same names, with entries that are related. -/
def Table.Related {α β : Type} (R : α → β → Prop) (t : Table α) (t' : Table β) : Prop :=
  ∀ name, Option.Rel R (t.get? name) (t'.get? name)

/-- The arrays have the same places, with entries that are related. -/
def ArraysRelated {α β : Type} (R : α → β → Prop) (xs : Array α) (ys : Array β) : Prop :=
  ∀ i : Nat, Option.Rel R xs[i]? ys[i]?

/-! ## Tables and arrays -/

section Related

variable {α β γ δ : Type} {R R' : α → β → Prop}

/-- What is related in one way is related in any wider one. -/
theorem related_imp {a : Option α} {b : Option β} (h : Option.Rel R a b)
    (himp : ∀ a b, R a b → R' a b) : Option.Rel R' a b := by
  cases h with
  | none => exact .none
  | some h => exact .some (himp _ _ h)

/-- Where one of the two is there, so is the other, and what is made of them is related. -/
theorem related_bind {Q : γ → δ → Prop} {a : Option α} {b : Option β} (h : Option.Rel R a b)
    {f : α → Option γ} {g : β → Option δ} (hfg : ∀ a b, R a b → Option.Rel Q (f a) (g b)) :
    Option.Rel Q (a.bind f) (b.bind g) := by
  cases h with
  | none => exact .none
  | some h => exact hfg _ _ h

namespace Table.Related

variable {t : Table α} {t' : Table β}

/-- The relation of the entries may be weakened. -/
theorem imp (h : Related R t t') (himp : ∀ a b, R a b → R' a b) : Related R' t t' :=
  fun name => related_imp (h name) himp

/-- Empty tables have no entries that could differ. -/
theorem empty : Related R .empty .empty := fun _ => .none

/-- Related entries of one name may be added on both sides. -/
theorem insert (h : Related R t t') (name : String) {a : α} {b : β} (hab : R a b) :
    Related R (t.insert name a) (t'.insert name b) := by
  intro other
  rw [Table.get?_insert, Table.get?_insert]
  split
  · exact .some hab
  · exact h other

end Table.Related

namespace ArraysRelated

variable {xs : Array α} {ys : Array β}

/-- The relation of the places may be weakened. -/
theorem imp (h : ArraysRelated R xs ys) (himp : ∀ a b, R a b → R' a b) : ArraysRelated R' xs ys :=
  fun i => related_imp (h i) himp

/-- Related arrays are equally long, since neither has a place that the other lacks. -/
theorem size_eq (h : ArraysRelated R xs ys) : ys.size = xs.size := by
  refine Nat.le_antisymm (Array.getElem?_eq_none_iff.mp ?_) (Array.getElem?_eq_none_iff.mp ?_)
  · have hend := h xs.size
    rw [Array.getElem?_eq_none (Nat.le_refl _)] at hend
    generalize ys[xs.size]? = b at hend ⊢
    cases hend
    rfl
  · have hend := h ys.size
    rw [Array.getElem?_eq_none (Nat.le_refl ys.size)] at hend
    generalize xs[ys.size]? = a at hend ⊢
    cases hend
    rfl

/-- Related entries may be added at the end. -/
theorem push (h : ArraysRelated R xs ys) {a : α} {b : β} (hab : R a b) :
    ArraysRelated R (xs.push a) (ys.push b) := by
  intro i
  rw [Array.getElem?_push, Array.getElem?_push, h.size_eq]
  split
  · exact .some hab
  · exact h i

/-- One place may be changed on both sides. -/
theorem modify (h : ArraysRelated R xs ys) (i : Nat) {f : α → α} {g : β → β}
    (hfg : ∀ a b, R a b → R (f a) (g b)) : ArraysRelated R (xs.modify i f) (ys.modify i g) := by
  intro j
  rw [Array.getElem?_modify, Array.getElem?_modify]
  have hj := h j
  split
  · generalize xs[j]? = a, ys[j]? = b at hj ⊢
    cases hj with
    | none => exact .none
    | some hab => exact .some (hfg _ _ hab)
  · exact hj

/-- One place may be written on both sides; outside the bounds neither is. -/
theorem setIfInBounds (h : ArraysRelated R xs ys) (i : Nat) {a : α} {b : β} (hab : R a b) :
    ArraysRelated R (xs.setIfInBounds i a) (ys.setIfInBounds i b) := by
  intro j
  rw [Array.getElem?_setIfInBounds, Array.getElem?_setIfInBounds, h.size_eq]
  split
  · split
    · exact .some hab
    · exact .none
  · exact h j

end ArraysRelated

end Related

/-! ## Values -/

variable {ρ σ : Type}

/-- The classes are the same, with methods that are related. -/
structure ClassBody.Related (M : Closure ρ → Closure σ → Prop) (b : ClassBody ρ) (b' : ClassBody σ) :
    Prop where
  identity : b'.identity = b.identity
  name : b'.name = b.name
  methods : Table.Related M b.methods b'.methods

/-- The classes and all that they extend are the same. -/
def Class.Related (M : Closure ρ → Closure σ → Prop) (c : Class ρ) (c' : Class σ) : Prop :=
  List.Forall₂ (ClassBody.Related M) c.chain c'.chain

/-- The values are the same but for the closures of functions and those of methods, which are related. -/
inductive Value.Related (C M : Closure ρ → Closure σ → Prop) : Value ρ → Value σ → Prop where
  | nil : Related C M .nil .nil
  | bool (b : Bool) : Related C M (.bool b) (.bool b)
  | number (x : Float) : Related C M (.number x) (.number x)
  | string (s : String) : Related C M (.string s) (.string s)
  | native (n : Native) : Related C M (.native n) (.native n)
  | function (id : Nat) {c c'} : C c c' → Related C M (.function id c) (.function id c')
  | classOf {c c'} : Class.Related M c c' → Related C M (.classOf c) (.classOf c')
  | object (id : Nat) {c c'} : Class.Related M c c' → Related C M (.object id c) (.object id c')

/-- Both fail with the same fault, or the values are related. -/
inductive ResultRelated (C M : Closure ρ → Closure σ → Prop) :
    Except RuntimeFault (Value ρ) → Except RuntimeFault (Value σ) → Prop where
  | ok {v v'} : v.Related C M v' → ResultRelated C M (.ok v) (.ok v')
  | error {fault} : ResultRelated C M (.error fault) (.error fault)

variable {C M : Closure ρ → Closure σ → Prop}

/-! ## Operators on other values -/

/-- There are two unary operators. -/
theorem Operator.unary_other {op : TokenKind} (hminus : op ≠ .mark .minus) (hbang : op ≠ .mark .bang)
    (v : Value ρ) : Operator.unary op v = .error .invalidUnary := by
  unfold Operator.unary
  split <;> first | rfl | contradiction

/-- All but `+`, `==` and `!=` work on numbers alone. -/
theorem Operator.binary_other {op : TokenKind} (hplus : op ≠ .mark .plus) (heq : op ≠ .mark .equalEqual)
    (hne : op ≠ .mark .bangEqual) (v u : Value ρ) :
    Operator.binary op v u =
      match v, u with
      | .number x, .number y => Operator.onNumbers op x y
      | _, _ => .error .operandsNotNumbers := by
  unfold Operator.binary
  split <;> first | contradiction | rfl

/-! ## Classes -/

namespace Class.Related

variable {M' : Closure ρ → Closure σ → Prop} {c : Class ρ} {c' : Class σ}

/-- The relation of the methods may be weakened. -/
theorem imp (h : c.Related M c') (himp : ∀ m m', M m m' → M' m m') : c.Related M' c' :=
  List.Forall₂.imp (fun _ _ hb => ⟨hb.identity, hb.name, hb.methods.imp himp⟩) h

/-- The methods a class has itself, without those it inherits, are related. -/
theorem own (h : c.Related M c') : c.own.Related M c'.own := (List.forall₂_cons.mp h).1

/-- Related classes have the same name. -/
theorem name_eq (h : c.Related M c') : c'.name = c.name := h.own.name

/-- The method of a name is found in the same class of the chain. -/
theorem method? (h : c.Related M c') (name : String) :
    Option.Rel M (c.method? name) (c'.method? name) := by
  unfold Class.method?
  unfold Class.Related at h
  generalize c.chain = bs, c'.chain = bs' at h
  induction h with
  | nil => exact .none
  | @cons b b' bs bs' hb _ ih =>
    rw [List.findSome?_cons, List.findSome?_cons]
    have hm := hb.methods name
    generalize b.methods.get? name = found, b'.methods.get? name = found' at hm
    cases hm with
    | none => exact ih
    | some hm => exact .some hm

end Class.Related

/-- A literal has one value. -/
theorem ofLiteral_related (l : Literal) : Value.Related C M (.ofLiteral l) (.ofLiteral l) := by
  cases l with
  | nil => exact .nil
  | bool b => exact .bool b
  | number x => exact .number x
  | string s => exact .string s

namespace Value.Related

variable {C' M' : Closure ρ → Closure σ → Prop} {v u : Value ρ} {v' u' : Value σ}

/-- Both relations may be weakened, whatever the value is. -/
theorem imp (h : v.Related C M v') (hC : ∀ c c', C c c' → C' c c') (hM : ∀ m m', M m m' → M' m m') :
    v.Related C' M' v' := by
  cases h with
  | nil => exact .nil
  | bool b => exact .bool b
  | number x => exact .number x
  | string s => exact .string s
  | native n => exact .native n
  | function id hc => exact .function id (hC _ _ hc)
  | classOf hc => exact .classOf (hc.imp hM)
  | object id hc => exact .object id (hc.imp hM)

/-! ## What values show -/

/-- Closures are true like most values, whatever they see. -/
theorem truthy_eq (h : v.Related C M v') : v'.truthy = v.truthy := by
  cases h <;> rfl

/-- A function shows its name only, a class its own, and an instance that of its class. -/
theorem display_eq (hC : ∀ c c', C c c' → c'.declaration.displayName = c.declaration.displayName)
    (h : v.Related C M v') : v'.display = v.display := by
  cases h with
  | function id hc => simp only [Value.display, hC _ _ hc]
  | classOf hc => exact hc.name_eq
  | object id hc => simp only [Value.display, hc.name_eq]
  | _ => rfl

/-- What is printed is what is shown, but for the capital of `Nil`. -/
theorem printed_eq (hC : ∀ c c', C c c' → c'.declaration.displayName = c.declaration.displayName)
    (h : v.Related C M v') : v'.printed = v.printed := by
  have hd := h.display_eq hC
  cases h with
  | nil => rfl
  | _ => exact hd

/-- Functions, classes and instances are told apart by their numbers, which related values share. -/
theorem same_eq (h : v.Related C M v') (h' : u.Related C M u') : v'.same u' = v.same u := by
  cases h with
  | classOf hc =>
    cases h' with
    | classOf hc' => simp only [Value.same, hc.own.identity, hc'.own.identity]
    | _ => rfl
  | _ => cases h' <;> rfl

/-! ## Operators and native functions

  They never look inside a function, so values that are related give results that are. -/

/-- A unary operator does not look into a closure. -/
theorem unary (h : v.Related C M v') (op : TokenKind) :
    ResultRelated C M (Operator.unary op v) (Operator.unary op v') := by
  have htruthy := h.truthy_eq
  by_cases hbang : op = .mark .bang
  · subst hbang
    have hv : Value.Related C M (.bool (!v.truthy)) (.bool (!v'.truthy)) := htruthy ▸ .bool _
    exact .ok hv
  by_cases hminus : op = .mark .minus
  · subst hminus
    cases h with
    | number x => exact .ok (.number _)
    | _ => exact .error
  · rw [Operator.unary_other hminus hbang, Operator.unary_other hminus hbang]
    exact .error

/-- Numbers are added and strings joined; for anything else it fails, on both sides. -/
theorem add (h : v.Related C M v') (h' : u.Related C M u') :
    ResultRelated C M (Operator.add v u) (Operator.add v' u') := by
  cases h with
  | number x =>
    cases h' with
    | number y => exact .ok (.number _)
    | _ => exact .error
  | string s =>
    cases h' with
    | string s' => exact .ok (.string _)
    | _ => exact .error
  | _ => exact .error

/-- Numbers are related only to themselves. -/
theorem onNumbers (op : TokenKind) (x y : Float) :
    ResultRelated C M (Operator.onNumbers op x y) (Operator.onNumbers op x y) := by
  unfold Operator.onNumbers
  split <;> first | exact .ok (.number _) | exact .ok (.bool _) | exact .error

/-- A binary operator does not look into a closure. -/
theorem binary (h : v.Related C M v') (op : TokenKind) (h' : u.Related C M u') :
    ResultRelated C M (Operator.binary op v u) (Operator.binary op v' u') := by
  have hsame := h.same_eq h'
  by_cases hplus : op = .mark .plus
  · subst hplus
    exact h.add h'
  by_cases heq : op = .mark .equalEqual
  · subst heq
    have hv : Value.Related C M (.bool (v.same u)) (.bool (v'.same u')) := hsame ▸ .bool _
    exact .ok hv
  by_cases hne : op = .mark .bangEqual
  · subst hne
    have hv : Value.Related C M (.bool (!v.same u)) (.bool (!v'.same u')) := hsame ▸ .bool _
    exact .ok hv
  · rw [Operator.binary_other hplus heq hne, Operator.binary_other hplus heq hne]
    cases h with
    | number x =>
      cases h' with
      | number y => exact onNumbers op x y
      | _ => exact .error
    | _ => exact .error

/-- Whether the right side is evaluated depends on the truth of the left alone. -/
theorem shortCircuits_eq (h : v.Related C M v') (op : TokenKind) :
    Operator.shortCircuits op v' = Operator.shortCircuits op v := by
  rw [Operator.shortCircuits, Operator.shortCircuits, h.truthy_eq]

end Value.Related

/-- A native function does the same with arguments that are related. -/
theorem nativeAnswer_related
    (hC : ∀ c c', C c c' → c'.declaration.displayName = c.declaration.displayName)
    {given : List (Value ρ)} {given' : List (Value σ)} (h : List.Forall₂ (Value.Related C M) given given')
    (host : Host) (native : Native) :
    ResultRelated C M (Machine.nativeAnswer given host native).1 (Machine.nativeAnswer given' host native).1 ∧
    (Machine.nativeAnswer given' host native).2 = (Machine.nativeAnswer given host native).2 := by
  cases native with
  | clock => exact ⟨.ok (.number _), rfl⟩
  | input =>
    unfold Machine.nativeAnswer
    cases Text.decode host.line with
    | ok text => exact ⟨.ok (.string text), rfl⟩
    | error _ => exact ⟨.error, rfl⟩
  | print =>
    -- Related values are printed alike, so the host is left alike.
    have hprinted : (given'.headD .nil).printed = (given.headD .nil).printed := by
      cases h with
      | nil => rfl
      | cons hv _ => exact hv.printed_eq hC
    simp only [Machine.nativeAnswer, hprinted]
    cases host.refusal? with
    | none => exact ⟨.ok .nil, rfl⟩
    | some refusal => exact ⟨.error, rfl⟩

end Lox
