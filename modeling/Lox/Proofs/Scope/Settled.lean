import Mathlib.Data.List.Forall2
import Lox.Proofs.Scope.Sites

/-!
  Settled sites.

  A site is a phrase with what the walk knows when it comes to it and with the layers around it, each a scope
  as it is when the walk leaves it.  It is settled (`Settled`) if

  * the phrase is formed, and no two of its occurrences have the same number;
  * the whole walk over it reports nothing;
  * nothing has been found about its occurrences before it, and what is found behind it is recorded;
  * the open scopes are those of its layers as far as the walk has come, before it and behind it (`Covers`);
  * the kinds of the layers are those of the class around it (`Stack`).

  A program of which nothing was reported is settled, and every site in a settled one is settled
  (`Settled.part`).  The step to a part splits the walk in three: before the part, over it, and behind it.
  What lies before and behind it moves the walk on (`Moves`), over other numbers and without leaving a scope,
  so that the part inherits each of the five facts (`Sits.of_effects`, `Sits.inner`).  Blocks, functions and
  classes open layers of their own and have lemmas of their own.
-/

namespace Lox.Scope

/-! ## Open scopes and layers

  The scopes that a walk keeps, and the layers of text that have opened them. -/

/-- The scope is the layer as far as the walk has come. -/
structure Fits (scope : Scope) (layer : Layer) : Prop where
  names : ∀ x, scope.contains x = true → layer.scope.contains x = true
  allowed : ∀ x, layer.scope.contains x = true → layer.kind.Allows x
  own : ∀ x, layer.kind.own? = some x → scope.contains x = true

/-- The open scopes are the layers as far as the walk has come. -/
abbrev Covers : List Scope → List Layer → Prop := List.Forall₂ Fits

/-- What the kinds of the layers around a site are, by the innermost class. -/
inductive Stack : ClassKind → List LayerKind → Prop where
  | top : Stack .outside []
  | body {owner kinds} : Stack owner kinds → Stack owner (.body :: kinds)
  | plain {owner kinds} : Stack owner kinds → Stack .plain (.this :: kinds)
  | subclass {owner kinds} : Stack owner kinds → Stack .subclass (.this :: .super :: kinds)

/-- What lies between two stages of a scope that are covered is covered. -/
theorem Covers.between {a b c : List Scope} {layers : List Layer} (h : Covers a layers)
    (h' : Covers c layers) (hab : Grown a b) (hbc : Grown b c) : Covers b layers := by
  cases hab with
  | nil => exact h
  | cons hab =>
    cases hbc with
    | cons hbc =>
      cases h with
      | cons hf hrest =>
        cases h' with
        | cons hf' _ =>
          exact .cons ⟨fun x hx => hf'.names x (hbc.keeps x hx), hf.allowed,
            fun x hx => hab.keeps x (hf.own x hx)⟩ hrest

/-- A scope that was entered empty, and grows until the walk leaves it. -/
theorem Covers.opened {a c rest : List Scope} {layers : List Layer} {layer : Layer}
    (h : Covers rest layers) (hk : layer.kind = .body) (hs : layer.scope = c.headD .empty)
    (ha : Grown (.empty :: rest) a) (hc : Grown a c) : Covers a (layer :: layers) := by
  -- The names of the layer are all that the scope has got when it is left; they are plain, because the scope
  -- was entered empty and has grown since.
  cases ha with
  | cons ha =>
    cases hc with
    | cons hc =>
      refine .cons ⟨fun x hx => ?_, fun x hx => ?_, fun x hx => ?_⟩ h
      · rw [hs]
        exact hc.keeps x hx
      · rw [hs] at hx
        rw [LayerKind.Allows, hk]
        rcases hc.plain x hx with hx | hx
        · rcases ha.plain x hx with hx | hx
          · cases hx
          · exact hx
        · exact hx
      · rw [hk] at hx
        cases hx

/-- A scope with one name fits the layer of that name. -/
theorem fits_own {layer : Layer} {own : String} (hk : layer.kind.own? = some own)
    (hs : layer.scope = Table.empty.insert own .defined) :
    Fits (Table.empty.insert own .defined) layer := by
  refine ⟨fun x hx => ?_, fun x hx => ?_, fun x hx => ?_⟩
  · rw [hs]
    exact hx
  · rw [hs, Table.contains_insert, Bool.or_eq_true, decide_eq_true_eq] at hx
    rw [LayerKind.Allows, hk]
    rcases hx with hx | hx
    · exact hx.symm
    · cases hx
  · rw [hk] at hx
    cases hx
    rw [Table.contains_insert, decide_eq_true rfl, Bool.true_or]

/-- The scopes of a class are the layers of a class from the beginning. -/
theorem Covers.classLayers {scopes : List Scope} {layers : List Layer} (h : Covers scopes layers)
    (opener : Visit) (extending : Bool) :
    Covers (Walk.classScopes extending ++ scopes) (Scope.classLayers opener extending ++ layers) := by
  cases extending with
  | true => exact .cons (fits_own rfl rfl) (.cons (fits_own rfl rfl) h)
  | false => exact .cons (fits_own rfl rfl) h

/-! ## Moves of a walk -/

/-- The walk goes on over these occurrences, and leaves no scope. -/
structure Moves (is : List Nat) (w w' : Walk) : Prop where
  effect : Effect is w w'
  grown : Grown w.scopes w'.scopes

namespace Moves

/-- To stay moves over no occurrences. -/
theorem refl (w : Walk) : Moves [] w w := ⟨.refl w, .refl _⟩

/-- The occurrences of two moves are those of one and then the other. -/
theorem trans {is js : List Nat} {u v w : Walk} (h : Moves is u v) (h' : Moves js v w) :
    Moves (is ++ js) u w :=
  ⟨h.effect.trans h'.effect, h.grown.trans h'.grown⟩

/-- A walk over a phrase moves over the occurrences of the phrase. -/
theorem of_formed {phrase : Phrase} {is : List Nat} (h : Formed phrase is) (ctx : Context)
    (w : Walk) : Moves is w (phrase.walk ctx w) :=
  ⟨effect_of_formed h ctx w, (growth_of_formed h ctx w).1⟩

theorem declare {name : Token} (hn : name.Plain) (w : Walk) : Moves [] w (w.declare name) :=
  ⟨.declare name w, .declare hn w⟩

theorem define {name : Token} (hn : name.Plain) (w : Walk) : Moves [] w (w.define name.lexeme) :=
  ⟨.define name.lexeme w, .define hn w⟩

theorem bind {name : Token} (hn : name.Plain) (w : Walk) : Moves [] w (w.bind name) :=
  ⟨.bind name w, .bind hn w⟩

/-- To locate an occurrence moves over it. -/
theorem locate (ref : Ref) (w : Walk) : Moves [ref.id] w (w.locate ref) :=
  ⟨.locate ref w, .of_eq (Walk.locate_scopes ref w)⟩

theorem checkReturn (body : BodyKind) (keyword : Token) (hasValue : Bool) (w : Walk) :
    Moves [] w (w.checkReturn body keyword hasValue) :=
  ⟨.checkReturn body keyword hasValue w, .of_eq (Walk.checkReturn_scopes body keyword hasValue w)⟩

end Moves

/-! ## Sites

  From a site to each of its parts, with the walk as it is when it comes there. -/

/-- What is true of a site whose occurrences have these numbers. -/
structure Sits (R : Resolution) (p : Site) (is : List Nat) : Prop where
  formed : Formed p.phrase is
  clean : p.after.problems = #[]
  nodup : is.Nodup
  fresh : ∀ id ∈ is, p.walk.found[id]? = none
  recorded : ∀ id ∈ is, R[id]? = p.after.found[id]?
  before : Covers p.walk.scopes p.layers
  behind : Covers p.after.scopes p.layers
  stack : Stack p.ctx.owner (p.layers.map Layer.kind)

/-- Nothing is reported at the site, and the distances found there are recorded. -/
def Settled (R : Resolution) (p : Site) : Prop := ∃ is, Sits R p is

/-- What the whole walk says of the numbers in a part of the phrase. -/
theorem Sits.of_effects {R : Resolution} {p q : Site} {is js ks ls : List Nat} (h : Sits R p is)
    (hf : Formed q.phrase ks) (hpre : Effect js p.walk q.walk) (hpost : Effect ls q.after p.after)
    (his : is = js ++ (ks ++ ls)) (hbefore : Covers q.walk.scopes q.layers)
    (hbehind : Covers q.after.scopes q.layers)
    (hstack : Stack q.ctx.owner (q.layers.map Layer.kind)) : Sits R q ks := by
  have hnodup := h.nodup
  rw [his] at hnodup
  -- The numbers of the part are neither among those before it nor among those behind it.
  obtain ⟨-, hrest, hdisjoint⟩ := List.nodup_append.mp hnodup
  obtain ⟨hks, -, hdisjoint'⟩ := List.nodup_append.mp hrest
  have hmem : ∀ id ∈ ks, id ∈ is := fun id hid => by
    rw [his]
    exact List.mem_append_right _ (List.mem_append_left _ hid)
  refine ⟨hf, hpost.clean h.clean, hks, fun id hid => ?_, fun id hid => ?_, hbefore, hbehind, hstack⟩
  · have hjs : id ∉ js := fun hj => hdisjoint id hj id (List.mem_append_left _ hid) rfl
    rw [hpre.found id hjs, h.fresh id (hmem id hid)]
  · have hls : id ∉ ls := fun hl => hdisjoint' id hid id hl rfl
    rw [h.recorded id (hmem id hid), hpost.found id hls]

/-- A part of the phrase within the same scopes. -/
theorem Sits.inner {R : Resolution} {p : Site} {is js ks ls : List Nat} {w : Walk}
    {phrase : Phrase} (h : Sits R p is) (hf : Formed phrase ks) (hpre : Moves js p.walk w)
    (hpost : Moves ls (phrase.walk p.ctx w) p.after) (his : is = js ++ (ks ++ ls)) :
    Settled R ⟨⟨p.ctx, w, phrase⟩, p.layers⟩ := by
  have hgrown := (growth_of_formed hf p.ctx w).1
  have hbefore : Covers w.scopes p.layers :=
    h.before.between h.behind hpre.grown (hgrown.trans hpost.grown)
  have hbehind : Covers (phrase.walk p.ctx w).scopes p.layers :=
    h.before.between h.behind (hpre.grown.trans hgrown) hpost.grown
  exact ⟨ks, h.of_effects hf hpre.effect hpost.effect his hbefore hbehind h.stack⟩

/-- The body of a function, in a scope of its own. -/
theorem Settled.body {R : Resolution} {ctx : Context} {w : Walk} {kind : BodyKind}
    {d : FunctionDecl} {ls : List Layer} (h : Settled R ⟨⟨ctx, w, .function kind d⟩, ls⟩) :
    Settled R ⟨⟨⟨kind, ctx.owner⟩, enterFunction d.params w, .stmts d.body⟩,
      functionLayer ctx w kind d :: ls⟩ := by
  obtain ⟨is, h⟩ := h
  -- With and without a superclass: the scopes of the class are opened around the methods, and closed again.
  cases h.formed with
  | @function _ _ _ params _ _ hp hb =>
    have hpre := Grown.binds hp w.enter
    have hbody := (growth_of_formed hb ⟨kind, ctx.owner⟩ (enterFunction params w)).1
    refine ⟨is, h.of_effects hb ((Effect.enter w).trans (.binds _ _)) (.leave _)
      (by simp) ?_ ?_ (.body h.stack)⟩
    · exact h.before.opened rfl rfl hpre hbody
    · exact h.before.opened rfl rfl (hpre.trans hbody) (.refl _)

/-- The statements of a block, in a scope of their own. -/
theorem Settled.block {R : Resolution} {ctx : Context} {w : Walk} {ss : List Stmt}
    {ls : List Layer} (h : Settled R ⟨⟨ctx, w, .stmt (.block ss)⟩, ls⟩) :
    Settled R ⟨⟨ctx, w.enter, .stmts ss⟩, blockLayer ctx w ss :: ls⟩ := by
  obtain ⟨is, h⟩ := h
  cases h.formed with
  | block hb =>
    have hbody := (growth_of_formed hb ctx w.enter).1
    refine ⟨is, h.of_effects hb (.enter w) (.leave _) (by simp) ?_ ?_
      (.body h.stack)⟩
    · exact h.before.opened rfl rfl (.refl _) hbody
    · exact h.before.opened rfl rfl hbody (.refl _)

/-- The methods of a class, in the scopes with `this` and, if it extends another, `super`. -/
theorem Settled.members {R : Resolution} {ctx : Context} {w : Walk} {name : Token}
    {superclass : Option Ref} {ds : List FunctionDecl} {ls : List Layer}
    (h : Settled R ⟨⟨ctx, w, .stmt (.classDecl name superclass ds)⟩, ls⟩) :
    Settled R ⟨⟨classContext ctx superclass.isSome,
      (enterHeader name superclass w).enterClass superclass.isSome, .methods ds⟩,
      classLayers ⟨ctx, w, .stmt (.classDecl name superclass ds)⟩ superclass.isSome ++ ls⟩ := by
  obtain ⟨is, h⟩ := h
  cases h.formed with
  | classDecl hn hm =>
    have hscopes := (growth_of_formed hm ⟨ctx.body, .plain⟩ ((w.bind name).enterClass false)).2 trivial
    have hcover : Covers (w.bind name).scopes ls :=
      Walk.leaveClass_scopes false hscopes ▸ h.behind
    -- The layers of the class cover the scopes that are entered for its methods.
    have hinner := hcover.classLayers ⟨ctx, w, .stmt (.classDecl name none ds)⟩ false
    rw [← Walk.enterClass_scopes] at hinner
    refine ⟨is, h.of_effects hm ((Effect.bind _ w).trans (.enterClass false _))
      (.leaveClass false _) (by simp) hinner ?_ (.plain h.stack)⟩
    exact hscopes.symm ▸ hinner
  | @subclass _ ref _ ks hn hr hm =>
    have hscopes := (growth_of_formed hm ⟨ctx.body, .subclass⟩
      (((w.bind name).useSuperclass name ref).enterClass true)).2 trivial
    have hcover : Covers ((w.bind name).useSuperclass name ref).scopes ls :=
      Walk.leaveClass_scopes true hscopes ▸ h.behind
    have hinner := hcover.classLayers ⟨ctx, w, .stmt (.classDecl name (some ref) ds)⟩ true
    rw [← Walk.enterClass_scopes] at hinner
    refine ⟨ks, h.of_effects hm
      (((Effect.bind _ w).trans (.useSuperclass name ref _)).trans_nil (.enterClass true _))
      (.leaveClass true _) (by simp) hinner ?_ (.subclass h.stack)⟩
    exact hscopes.symm ▸ hinner

/-- **Every site in a settled one is settled.** -/
theorem Settled.part {R : Resolution} {p q : Site} (hs : Settled R p) (hq : Part p q) :
    Settled R q := by
  have hall := hs
  obtain ⟨is, h⟩ := hs
  -- One case for each way from a phrase to a part. The formedness of the phrase says which parts there are,
  -- and what is said of the walk before and behind the part is in each case what the walk does there.
  cases hq with
  | grouping =>
    cases h.formed with
    | grouping he => exact h.inner he (.refl _) (.refl _) (by simp)
  | operand =>
    cases h.formed with
    | unary _ he => exact h.inner he (.refl _) (.refl _) (by simp)
  | left =>
    cases h.formed with
    | binary _ hl hr => exact h.inner hl (.refl _) (.of_formed hr _ _) rfl
  | right =>
    cases h.formed with
    | binary _ hl hr => exact h.inner hr (.of_formed hl _ _) (.refl _) (by simp)
  | leftLogical =>
    cases h.formed with
    | logical hl hr => exact h.inner hl (.refl _) (.of_formed hr _ _) rfl
  | rightLogical =>
    cases h.formed with
    | logical hl hr => exact h.inner hr (.of_formed hl _ _) (.refl _) (by simp)
  | condition =>
    cases h.formed with
    | ternary hc ht he =>
      exact h.inner hc (.refl _) ((Moves.of_formed ht _ _).trans (.of_formed he _ _)) rfl
  | thenValue =>
    cases h.formed with
    | ternary hc ht he => exact h.inner ht (.of_formed hc _ _) (.of_formed he _ _) rfl
  | elseValue =>
    cases h.formed with
    | ternary hc ht he =>
      exact h.inner he ((Moves.of_formed hc _ _).trans (.of_formed ht _ _)) (.refl _) (by simp)
  | assigned =>
    cases h.formed with
    | assign _ he => exact h.inner he (.refl _) (.locate _ _) rfl
  | callee =>
    cases h.formed with
    | call hc hes => exact h.inner hc (.refl _) (.of_formed hes _ _) rfl
  | arguments =>
    cases h.formed with
    | call hc hes => exact h.inner hes (.of_formed hc _ _) (.refl _) (by simp)
  | object =>
    cases h.formed with
    | get ho => exact h.inner ho (.refl _) (.refl _) (by simp)
  | target =>
    cases h.formed with
    | set ho he => exact h.inner ho (.refl _) (.of_formed he _ _) rfl
  | field =>
    cases h.formed with
    | set ho he => exact h.inner he (.of_formed ho _ _) (.refl _) (by simp)
  | lambda =>
    cases h.formed with
    | lambda hd => exact h.inner hd (.refl _) (.refl _) (by simp)
  | firstExpr =>
    cases h.formed with
    | exprs he hes => exact h.inner he (.refl _) (.of_formed hes _ _) rfl
  | otherExprs =>
    cases h.formed with
    | exprs he hes => exact h.inner hes (.of_formed he _ _) (.refl _) (by simp)
  | expression =>
    cases h.formed with
    | expression he => exact h.inner he (.refl _) (.refl _) (by simp)
  | value =>
    cases h.formed with
    | value he => exact h.inner he (.refl _) (.refl _) (by simp)
  | initializer =>
    cases h.formed with
    | initialized hn he => exact h.inner he (.declare hn _) (.define hn _) (by simp)
  | block => exact hall.block
  | decision =>
    cases h.formed with
    | ifOnly _ hc ht => exact h.inner hc (.refl _) (.of_formed ht _ _) rfl
    | ifElse _ _ hc ht he =>
      exact h.inner hc (.refl _) ((Moves.of_formed ht _ _).trans (.of_formed he _ _)) rfl
  | thenBranch =>
    cases h.formed with
    | ifOnly _ hc ht => exact h.inner ht (.of_formed hc _ _) (.refl _) (by simp)
    | ifElse _ _ hc ht he => exact h.inner ht (.of_formed hc _ _) (.of_formed he _ _) rfl
  | elseBranch =>
    cases h.formed with
    | ifElse _ _ hc ht he =>
      exact h.inner he ((Moves.of_formed hc _ _).trans (.of_formed ht _ _)) (.refl _) (by simp)
  | test =>
    cases h.formed with
    | whileLoop _ hc hb => exact h.inner hc (.refl _) (.of_formed hb _ _) rfl
  | round =>
    cases h.formed with
    | whileLoop _ hc hb => exact h.inner hb (.of_formed hc _ _) (.refl _) (by simp)
  | declared =>
    cases h.formed with
    | funcDecl hn hd => exact h.inner hd (.bind hn _) (.refl _) (by simp)
  | members => exact hall.members
  | returned =>
    cases h.formed with
    | returnedValue he => exact h.inner he (.checkReturn _ _ _ _) (.refl _) (by simp)
  | firstStmt =>
    cases h.formed with
    | stmts hs hss => exact h.inner hs (.refl _) (.of_formed hss _ _) rfl
  | otherStmts =>
    cases h.formed with
    | stmts hs hss => exact h.inner hss (.of_formed hs _ _) (.refl _) (by simp)
  | body => exact hall.body
  | firstMethod =>
    cases h.formed with
    | methods hd hds => exact h.inner hd (.refl _) (.of_formed hds _ _) rfl
  | otherMethods =>
    cases h.formed with
    | methods hd hds => exact h.inner hds (.of_formed hd _ _) (.refl _) (by simp)

/-- A phrase that gives no name to the scope it stands in leaves the scopes as they are. -/
theorem Settled.scopes {R : Resolution} {p : Site} (h : Settled R p) (hq : p.phrase.IsQuiet) :
    p.after.scopes = p.walk.scopes := by
  obtain ⟨is, h⟩ := h
  exact (growth_of_formed h.formed p.ctx p.walk).2 hq

end Lox.Scope
