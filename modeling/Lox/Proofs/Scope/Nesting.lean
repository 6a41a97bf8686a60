import Lox.Proofs.Scope.Recorded

/-!
  Layers around sites.

  Around a site lie the layers of blocks and functions.  Those of a class lie around its methods only, and
  directly inside them there is nothing but the layer of a method (`Nest`).  So a site at which the walk finds
  `this` stands in the text of a method, with nothing but blocks and functions between (`InMethod`).

  1. `Site.Nested` says what layers may lie around a phrase; every step from a phrase to a part keeps it
     (`Part.nested`), so that it holds of all sites that are visited (`Visited.nested`).
  2. Layers nested like this have no class among them, or lie in a method (`Nest.inMethod`), at a depth that
     counts the blocks and functions between.
  3. At that depth `this` is found one scope outside that of the method (`InMethod.distance_this`), and
     `super`, if the class extends another, one scope farther.

  `Settled.inMethod` and `Settled.inSubclass` say this of settled sites, for the evaluator: which frame of a
  chain is the one that was made when the method was bound to its instance.
-/

namespace Lox.Scope

/-- The layers around a statement or an expression. -/
inductive Nest : List Layer → Prop where
  | outside : Nest []
  | block {ctx w ss ls} : Nest ls → Nest (blockLayer ctx w ss :: ls)
  | function {ctx w kind d ls} : Nest ls → Nest (functionLayer ctx w kind d :: ls)
  | method {ctx w kind d opener name superclass ds ls} :
    opener.phrase = .stmt (.classDecl name superclass ds) → d ∈ ds → Nest ls →
    Nest (functionLayer ctx w kind d :: (classLayers opener superclass.isSome ++ ls))

/-- The layers around methods of a class that has all of these. -/
inductive Members (ds : List FunctionDecl) : List Layer → Prop where
  | intro {opener name superclass all ls} : opener.phrase = .stmt (.classDecl name superclass all) →
    (∀ d ∈ ds, d ∈ all) → Nest ls → Members ds (classLayers opener superclass.isSome ++ ls)

/-- The layers are as they should be around the phrase. -/
def Site.Nested (p : Site) : Prop :=
  match p.phrase with
  | .methods ds => Members ds p.layers
  | .function _ d => Nest p.layers ∨ Members [d] p.layers
  | _ => Nest p.layers

/-- Fewer methods of the class. -/
theorem Members.mono {ds ds' : List FunctionDecl} {ls : List Layer} (h : Members ds ls)
    (hsub : ∀ d ∈ ds', d ∈ ds) : Members ds' ls := by
  obtain ⟨hopener, hall, hnest⟩ := h
  exact .intro hopener (fun d hd => hall d (hsub d hd)) hnest

/-- In the body of a method the layer of the method comes first. -/
theorem Members.body {ctx : Context} {w : Walk} {kind : BodyKind} {d : FunctionDecl}
    {ls : List Layer} (h : Members [d] ls) : Nest (functionLayer ctx w kind d :: ls) := by
  obtain ⟨hopener, hall, hnest⟩ := h
  exact .method hopener (hall d List.mem_cons_self) hnest

/-- What the walk comes to from a site lies in its layers, and in those that the site opens. -/
theorem Part.nested {p q : Site} (hq : Part p q) (hp : p.Nested) : q.Nested := by
  -- Functions and classes open layers. What is a method is known from the list that it stands in, and the
  -- list gets shorter.
  cases hq with
  | lambda => exact .inl hp
  | declared => exact .inl hp
  | block => exact .block hp
  | members => exact .intro rfl (fun _ hd => hd) hp
  | body =>
    rcases hp with hp | hp
    · exact .function hp
    · exact hp.body
  | firstMethod =>
    have hmembers : Members _ _ := hp
    exact .inr (hmembers.mono fun d hd => List.mem_singleton.mp hd ▸ List.mem_cons_self)
  | otherMethods =>
    have hmembers : Members _ _ := hp
    exact hmembers.mono fun d hd => List.mem_cons_of_mem _ hd
  | _ => exact hp

/-- By induction on the way of the walk to the site. -/
theorem Visited.nested {program : List Stmt} {p : Site} (h : Visited program p) : p.Nested := by
  induction h with
  | program => exact .outside
  | part _ hq ih => exact hq.nested ih

/-- Innermost is a block or a function. -/
theorem Nest.head {ℓ : Layer} {ls : List Layer} (h : Nest (ℓ :: ls)) : ℓ.kind = .body := by
  cases h with
  | block | function | method => rfl

/-! ## Sites in methods -/

/-- Innermost in the layers are those of blocks and functions, as many as the depth says, then that of
    the method, and then those around the methods of the class that is declared there. -/
inductive InMethod (d : FunctionDecl) (opener : Visit) (extending : Bool) : List Layer → Nat → Prop where
  | own {ctx w kind ls} : Nest ls →
    InMethod d opener extending (functionLayer ctx w kind d :: (classLayers opener extending ++ ls)) 0
  | deeper {ℓ ls depth} : ℓ.kind = .body → InMethod d opener extending ls depth →
    InMethod d opener extending (ℓ :: ls) (depth + 1)

/-- There is no class around the layers, or they are in the text of a method. -/
theorem Nest.inMethod {ls : List Layer} (h : Nest ls) : (∀ ℓ ∈ ls, ℓ.kind = .body) ∨
    ∃ d opener name superclass ds depth, InMethod d opener superclass.isSome ls depth ∧
      opener.phrase = .stmt (.classDecl name superclass ds) ∧ d ∈ ds := by
  induction h with
  | outside => exact .inl nofun
  | block _ ih | function _ ih =>
    rcases ih with hbodies | ⟨d, opener, name, superclass, ds, depth, hin, hopener, hd⟩
    · exact .inl (List.forall_mem_cons.mpr ⟨rfl, hbodies⟩)
    · exact .inr ⟨d, opener, name, superclass, ds, depth + 1, .deeper rfl hin, hopener, hd⟩
  | method hopener hd hnest _ => exact .inr ⟨_, _, _, _, _, 0, .own hnest, hopener, hd⟩

namespace InMethod

variable {d : FunctionDecl} {opener : Visit} {extending : Bool} {ls : List Layer} {depth : Nat}

/-- The layers of the method and of the instance. -/
theorem layers (h : InMethod d opener extending ls depth) :
    (∃ ctx w kind, ls[depth]? = some (functionLayer ctx w kind d)) ∧
      ls[depth + 1]? = some (thisLayer opener) := by
  induction h with
  | own _ => exact ⟨⟨_, _, _, rfl⟩, rfl⟩
  | deeper _ _ ih => exact ih

/-- If there is a layer with a superclass behind that of the instance, it is that of the class. -/
theorem super_layer (h : InMethod d opener extending ls depth) {ℓ : Layer}
    (hℓ : ls[depth + 2]? = some ℓ) (hk : ℓ.kind = .super) : extending = true ∧ ℓ = superLayer opener := by
  induction h with
  | @own ctx w kind ls hnest =>
    cases extending with
    | true =>
      cases hℓ
      exact ⟨rfl, rfl⟩
    | false =>
      have hhead : ls[0]? = some ℓ := hℓ
      -- Without a superclass the next layer is one around the class, which is that of a block or function.
      cases hnest with
      | outside => cases hhead
      | block | function | method =>
        cases hhead
        cases hk
  | deeper _ _ ih => exact ih hℓ

/-- The walk finds `this` in the scope around that of the method. -/
theorem distance_this (h : InMethod d opener extending ls depth) {scopes : List Scope}
    (hc : Covers scopes ls) : scopes.findIdx? (·.contains "this") = some (depth + 1) := by
  have hno : ∀ {a : Scope} {ℓ : Layer}, Fits a ℓ → ℓ.kind = .body → a.contains "this" = false :=
    fun hf hk => Bool.eq_false_iff.mpr fun hx => (hf.plain_of_body hk hx).1 rfl
  -- The scope of the method has no `this`, and the one around it has; a block or function around the site
  -- adds one scope that has none.
  induction h generalizing scopes with
  | own _ =>
    cases hc with
    | cons hf hrest =>
      cases hrest with
      | cons hf' _ =>
        have hyes := hf'.own "this" rfl
        simp [List.findIdx?_cons, hno hf rfl, hyes]
  | deeper hk _ ih =>
    cases hc with
    | cons hf hrest => simp [List.findIdx?_cons, hno hf hk, ih hrest]

end InMethod

/-- Where `this` may stand, in the text of a method. -/
theorem Settled.inMethod {R : Resolution} {p : Site} (h : Settled R p) (hn : Nest p.layers)
    (ho : p.ctx.owner ≠ .outside) :
    ∃ d opener name superclass ds depth, InMethod d opener superclass.isSome p.layers depth ∧
      opener.phrase = .stmt (.classDecl name superclass ds) ∧ d ∈ ds ∧
      p.walk.distance? "this" = some (depth + 1) := by
  obtain ⟨is, hsits⟩ := h
  rcases hn.inMethod with hbodies | ⟨d, opener, name, superclass, ds, depth, hin, hopener, hd⟩
  · obtain ⟨d, ℓ, -, hℓ, hk⟩ := Covers.distance_this hsits.before hsits.stack ho
    rw [hbodies ℓ (List.mem_of_getElem? hℓ)] at hk
    cases hk
  · exact ⟨d, opener, name, superclass, ds, depth, hin, hopener, hd, hin.distance_this hsits.before⟩

/-- Where `super` may stand, the class extends another, and `super` is found one scope outside that in
    which `this` is. -/
theorem Settled.inSubclass {R : Resolution} {p : Site} (h : Settled R p) (hn : Nest p.layers)
    (ho : p.ctx.owner = .subclass) :
    ∃ d opener name ref ds depth, InMethod d opener true p.layers depth ∧
      opener.phrase = .stmt (.classDecl name (some ref) ds) ∧ d ∈ ds ∧
      p.walk.distance? "this" = some (depth + 1) ∧ p.walk.distance? "super" = some (depth + 2) ∧
      p.layers[depth + 2]? = some (superLayer opener) := by
  obtain ⟨d, opener, name, superclass, ds, depth, hin, hopener, hd, hthis⟩ :=
    h.inMethod hn (by rw [ho]; nofun)
  obtain ⟨is, hsits⟩ := h
  obtain ⟨k, ℓ, ℓ', hthis', hsuper, -, -, hℓ', hk'⟩ :=
    Covers.distance_super hsits.before (ho ▸ hsits.stack)
  -- The layer in which `this` was found by the depth is the one in which the walk finds it.
  cases hthis.symm.trans hthis'
  obtain ⟨hextending, rfl⟩ := hin.super_layer hℓ' hk'
  obtain ⟨ref, rfl⟩ := Option.isSome_iff_exists.mp hextending
  exact ⟨d, opener, name, ref, ds, depth, hin, hopener, hd, hthis, hsuper, hℓ'⟩

end Lox.Scope
