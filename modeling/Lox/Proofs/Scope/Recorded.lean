import Lox.Proofs.Scope.Settled

/-!
  What is known at a settled site.

  A site is settled if the walk over it has reported nothing and what it found is kept.  This module reads off
  what that means where the evaluator needs it:

  * the distance recorded for an occurrence is the one that the walk finds when it comes to it (`Recorded`),
    for variables, assignments, `this`, `super` and the name of a superclass;
  * a name that is declared is new to the innermost scope (`Unclaimed`), and is one more name in it behind the
    declaration (`Claims`);
  * `this` stands in the scopes of a class and `super` in those of a class that extends another, with the scope
    of `this` directly inside that of `super` (`Covers.distance_this`, `Covers.distance_super`);
  * the operators of unary and binary trees are operators that there are.

  There is one lemma for each kind of phrase.  Its proof takes the formedness of the phrase apart, follows the
  walk backwards from the end, where there are no problems, and looks up the number of the occurrence, which
  nothing else in the phrase has.
-/

namespace Lox.Scope

/-- The recorded distance of the occurrence is the one that the walk finds. -/
def Recorded (R : Resolution) (w : Walk) (ref : Ref) : Prop :=
  R[ref.id]? = w.distance? ref.name.lexeme

/-- The innermost scope, if there is one, does not have the name. -/
def Unclaimed (name : String) (w : Walk) : Prop := ∀ a ∈ w.scopes.head?, a.contains name = false

namespace Walk

/-- Distances are looked for in the scopes only. -/
theorem distance?_of_scopes {w w' : Walk} (h : w'.scopes = w.scopes) (name : String) :
    w'.distance? name = w.distance? name := by
  rw [distance?, h, distance?]

/-- What has been found about an occurrence that is new. -/
theorem locate_found {ref : Ref} {w : Walk} (h : w.found[ref.id]? = none) :
    (w.locate ref).found[ref.id]? = w.distance? ref.name.lexeme := by
  unfold locate
  split
  · rename_i d hd
    rw [hd]
    exact Std.TreeMap.getElem?_insert_self
  · rename_i hd
    rw [h, hd]

/-- Behind a report there are problems. -/
theorem report_problems (token : Token) (fault : ScopingFault) (w : Walk) :
    (w.report token fault).problems ≠ #[] :=
  fun h => absurd (congrArg Array.size h) (by simp [report])

/-- A use that is not reported is located, and nothing else. -/
theorem use_eq_locate {ref : Ref} {w : Walk} (h : (w.use ref).problems = #[]) :
    w.use ref = w.locate ref := by
  have hclean := (Effect.locate ref _).clean h
  unfold use at hclean ⊢
  dsimp only at hclean ⊢
  split
  · rename_i hown
    rw [if_pos hown] at hclean
    exact absurd hclean (report_problems _ _ w)
  · rfl

/-- A declaration that is not reported is one of a new name. -/
theorem unclaimed_of_declare {name : Token} {w : Walk} (h : (w.declare name).problems = #[]) :
    Unclaimed name.lexeme w := by
  intro a ha
  -- Outside of all scopes no name is taken; in a scope a name that is taken would be reported.
  unfold declare at h
  split at h
  · rename_i hs
    rw [hs] at ha
    cases ha
  · rename_i scope outer hs
    rw [hs] at ha
    cases ha
    split at h
    · exact absurd h (report_problems _ _ w)
    · rename_i hcontains
      exact Bool.eq_false_iff.mpr hcontains

/-- The same for what is declared and defined at once. -/
theorem unclaimed_of_bind {name : Token} {w : Walk} (h : (w.bind name).problems = #[]) :
    Unclaimed name.lexeme w :=
  unclaimed_of_declare ((Effect.define name.lexeme _).clean h)

end Walk

/-- The walk has one more name in its innermost scope, if there is one. -/
structure Claims (name : String) (w w' : Walk) : Prop where
  outside : w.scopes = [] → w'.scopes = []
  inside : ∀ a rest, w.scopes = a :: rest →
    ∃ a', w'.scopes = a' :: rest ∧ ∀ x, a'.contains x = (decide (name = x) || a.contains x)

namespace Claims

/-- To define a name claims it. -/
theorem define (name : String) (w : Walk) : Claims name w (w.define name) := by
  refine ⟨fun h => ?_, fun a rest h => ⟨a.insert name .defined, ?_, fun x => ?_⟩⟩
  · rw [Walk.define, h]
    exact h
  · rw [Walk.define, h]
  · exact Table.contains_insert a name x .defined

/-- To declare a new name claims it. -/
theorem declare {name : Token} {w : Walk} (h : Unclaimed name.lexeme w) :
    Claims name.lexeme w (w.declare name) := by
  refine ⟨fun hs => ?_, fun a rest hs => ⟨a.insert name.lexeme .declared, ?_, fun x => ?_⟩⟩
  · rw [Walk.declare, hs]
    exact hs
  · have ha := h a (by rw [hs]; rfl)
    simp [Walk.declare, hs, ha]
  · exact Table.contains_insert a name.lexeme x .declared

/-- Claiming a name once more changes nothing. -/
theorem again {name : String} {u v w : Walk} (h : Claims name u v) (h' : Claims name v w) :
    Claims name u w := by
  refine ⟨fun hs => h'.outside (h.outside hs), fun a rest hs => ?_⟩
  obtain ⟨a', hs', ha'⟩ := h.inside a rest hs
  obtain ⟨a'', hs'', ha''⟩ := h'.inside a' rest hs'
  refine ⟨a'', hs'', fun x => ?_⟩
  rw [ha'', ha', ← Bool.or_assoc, Bool.or_self]

/-- To do both claims it once. -/
theorem bind {name : Token} {w : Walk} (h : Unclaimed name.lexeme w) :
    Claims name.lexeme w (w.bind name) :=
  (declare h).again (define name.lexeme _)

/-- Steps behind it that leave the scopes alone do not matter. -/
theorem of_scopes {name : String} {u v w : Walk} (h : Claims name u v) (hs : w.scopes = v.scopes) :
    Claims name u w := by
  refine ⟨fun hu => hs.trans (h.outside hu), fun a rest hu => ?_⟩
  rw [hs]
  exact h.inside a rest hu

end Claims

/-- Claiming a name leaves the distances of the others as they are. -/
theorem Claims.distance? {name x : String} {w w' : Walk} (h : Claims name w w') (hx : name ≠ x) :
    w'.distance? x = w.distance? x := by
  unfold Walk.distance?
  cases hs : w.scopes with
  | nil => rw [h.outside hs]
  | cons a rest =>
    obtain ⟨a', hs', ha'⟩ := h.inside a rest hs
    rw [hs', List.findIdx?_cons, List.findIdx?_cons, ha', decide_eq_false hx, Bool.false_or]

/-! ## Occurrences

  An occurrence at a settled site has the distance recorded that the scopes there give it. -/

section Occurrences

variable {R : Resolution} {ctx : Context} {w : Walk} {ls : List Layer} {ref : Ref}

/-- The occurrence of a variable. -/
theorem Settled.variable (h : Settled R ⟨⟨ctx, w, .expr (.variable ref)⟩, ls⟩) :
    Recorded R w ref ∧ ref.name.Plain := by
  obtain ⟨is, h⟩ := h
  cases h.formed with
  | name hn =>
    have hfresh := h.fresh ref.id List.mem_cons_self
    have hrecorded := h.recorded ref.id List.mem_cons_self
    refine ⟨?_, hn⟩
    have huse : (w.use ref).problems = #[] := h.clean
    rw [Recorded, hrecorded, ← Walk.locate_found hfresh, ← Walk.use_eq_locate huse]
    rfl

/-- The target of an assignment, which is looked for behind the value. -/
theorem Settled.assign {e : Expr} (h : Settled R ⟨⟨ctx, w, .expr (.assign ref e)⟩, ls⟩) :
    Recorded R w ref ∧ ref.name.Plain := by
  obtain ⟨is, h⟩ := h
  cases h.formed with
  | @assign _ _ is hn he =>
    have hmem : ref.id ∈ is ++ [ref.id] := List.mem_append_right _ List.mem_cons_self
    -- The walk over the value has found nothing under this number, and leaves the scopes as they are.
    have hnot : ref.id ∉ is := fun hi =>
      (List.nodup_append.mp h.nodup).2.2 ref.id hi ref.id List.mem_cons_self rfl
    have hfresh : (walkExpr ctx e w).found[ref.id]? = none := by
      rw [← h.fresh ref.id hmem]
      exact (effect_of_formed he ctx w).found ref.id hnot
    refine ⟨?_, hn⟩
    rw [Recorded, h.recorded ref.id hmem,
      ← Walk.distance?_of_scopes ((growth_of_formed he ctx w).2 trivial)]
    exact Walk.locate_found hfresh

/-- Outside of a class there would be a report. -/
theorem Settled.this (h : Settled R ⟨⟨ctx, w, .expr (.this ref)⟩, ls⟩) :
    Recorded R w ref ∧ ref.name.lexeme = "this" ∧ ctx.owner ≠ .outside := by
  obtain ⟨is, h⟩ := h
  cases h.formed with
  | this hn =>
    have hfresh := h.fresh ref.id List.mem_cons_self
    have hclean : (w.useThis ctx.owner ref).problems = #[] := h.clean
    have hrecorded : R[ref.id]? = (w.useThis ctx.owner ref).found[ref.id]? :=
      h.recorded ref.id List.mem_cons_self
    cases ho : ctx.owner with
    | outside =>
      rw [ho] at hclean
      exact absurd hclean (Walk.report_problems _ _ w)
    | plain | subclass =>
      rw [ho] at hrecorded
      exact ⟨hrecorded.trans (Walk.locate_found hfresh), hn, nofun⟩

/-- Outside of a class that extends another there would be a report. -/
theorem Settled.super {method : Token}
    (h : Settled R ⟨⟨ctx, w, .expr (.super ref method)⟩, ls⟩) :
    Recorded R w ref ∧ ref.name.lexeme = "super" ∧ ctx.owner = .subclass := by
  obtain ⟨is, h⟩ := h
  cases h.formed with
  | super hn =>
    have hfresh := h.fresh ref.id List.mem_cons_self
    have hclean : (w.useSuper ctx.owner ref).problems = #[] := h.clean
    have hrecorded : R[ref.id]? = (w.useSuper ctx.owner ref).found[ref.id]? :=
      h.recorded ref.id List.mem_cons_self
    cases ho : ctx.owner with
    | outside | plain =>
      rw [ho] at hclean
      exact absurd hclean (Walk.report_problems _ _ w)
    | subclass =>
      rw [ho] at hrecorded
      exact ⟨hrecorded.trans (Walk.locate_found hfresh), hn, rfl⟩

/-- The name of a superclass, looked for behind the name of the class, of which it is not the same. -/
theorem Settled.superclass {name : Token} {ds : List FunctionDecl}
    (h : Settled R ⟨⟨ctx, w, .stmt (.classDecl name (some ref) ds)⟩, ls⟩) :
    Recorded R w ref ∧ ref.name.Plain ∧ name.lexeme ≠ ref.name.lexeme := by
  obtain ⟨is, h⟩ := h
  cases h.formed with
  | @subclass _ _ _ is hn hr hm =>
    -- Backwards over the methods and the scopes of the class, in which this number is not found.
    have hafter := ((effect_of_formed hm ⟨ctx.body, .subclass⟩
      (((w.bind name).useSuperclass name ref).enterClass true)).trans_nil (.leaveClass true _))
    have hheader := ((Effect.enterClass true _).trans hafter)
    have hclean := hheader.clean h.clean
    have hnot : ref.id ∉ is := (List.nodup_cons.mp h.nodup).1
    have hfresh : (w.bind name).found[ref.id]? = none := by
      rw [(Effect.bind name w).found ref.id nofun]
      exact h.fresh ref.id List.mem_cons_self
    have hrecorded : R[ref.id]? = ((w.bind name).useSuperclass name ref).found[ref.id]? :=
      (h.recorded ref.id List.mem_cons_self).trans (hheader.found ref.id hnot)
    have hbind := ((Effect.useSuperclass name ref _).clean hclean)
    -- A class that extends itself would be reported.
    have hname : name.lexeme ≠ ref.name.lexeme := by
      intro heq
      rw [Walk.useSuperclass, if_pos heq.symm] at hclean
      exact absurd ((Effect.use ref _).clean hclean) (Walk.report_problems _ _ _)
    rw [Walk.useSuperclass, if_neg (Ne.symm hname)] at hclean hrecorded
    refine ⟨?_, hr, hname⟩
    -- The class has claimed another name, which leaves the distance as it is.
    rw [Recorded, hrecorded, ← (Claims.bind (Walk.unclaimed_of_bind hbind)).distance? hname,
      ← Walk.locate_found hfresh, ← Walk.use_eq_locate hclean]

/-! ## Declarations

  A declaration that passes the resolver declares a name that its scope does not have. -/

/-- A declared variable is new, and there behind its declaration. -/
theorem Settled.varDecl {name : Token} {e : Option Expr}
    (h : Settled R ⟨⟨ctx, w, .stmt (.varDecl name e)⟩, ls⟩) :
    name.Plain ∧ Unclaimed name.lexeme w ∧
      Claims name.lexeme w (walkStmt ctx (.varDecl name e) w) := by
  obtain ⟨is, h⟩ := h
  cases h.formed with
  -- With a value the walk over it lies between: it leaves the innermost scope with the new name.
  | unset hn =>
    have hnew := Walk.unclaimed_of_declare ((Effect.define name.lexeme _).clean h.clean)
    exact ⟨hn, hnew, (Claims.declare hnew).again (.define _ _)⟩
  | initialized hn he =>
    have hvalue := (effect_of_formed he ctx (w.declare name)).trans_nil (.define name.lexeme _)
    have hnew := Walk.unclaimed_of_declare (hvalue.clean h.clean)
    have hscopes := (growth_of_formed he ctx (w.declare name)).2 trivial
    exact ⟨hn, hnew, ((Claims.declare hnew).of_scopes hscopes).again (.define _ _)⟩

/-- A declared function is new, and there in its body and behind it. -/
theorem Settled.funcDecl {d : FunctionDecl}
    (h : Settled R ⟨⟨ctx, w, .stmt (.funcDecl d)⟩, ls⟩) :
    ∃ name, d.name = some name ∧ name.Plain ∧ Unclaimed name.lexeme w ∧
      (walkStmt ctx (.funcDecl d) w).scopes = (w.bind name).scopes := by
  obtain ⟨is, h⟩ := h
  cases h.formed with
  | @funcDecl name _ _ _ _ hn hd =>
    have hbind : (w.bind name).problems = #[] := (effect_of_formed hd ctx _).clean h.clean
    exact ⟨name, rfl, hn, Walk.unclaimed_of_bind hbind, (growth_of_formed hd ctx _).2 trivial⟩

/-- A declared class is new, and there behind its declaration. -/
theorem Settled.classDecl {name : Token} {superclass : Option Ref} {ds : List FunctionDecl}
    (h : Settled R ⟨⟨ctx, w, .stmt (.classDecl name superclass ds)⟩, ls⟩) :
    name.Plain ∧ Unclaimed name.lexeme w ∧ (enterHeader name superclass w).scopes = (w.bind name).scopes
      ∧ (walkStmt ctx (.classDecl name superclass ds) w).scopes = (w.bind name).scopes := by
  obtain ⟨is, h⟩ := h
  cases h.formed with
  -- The scopes of the class are opened and closed around the methods; what stays is the name.
  | classDecl hn hm =>
    have hscopes := (growth_of_formed hm ⟨ctx.body, .plain⟩ ((w.bind name).enterClass false)).2 trivial
    have hmethods := (Effect.enterClass false (w.bind name)).trans
      ((effect_of_formed hm ⟨ctx.body, .plain⟩ _).trans_nil (.leaveClass false _))
    exact ⟨hn, Walk.unclaimed_of_bind (hmethods.clean h.clean), rfl,
      Walk.leaveClass_scopes false hscopes⟩
  | @subclass _ ref _ _ hn hr hm =>
    have hscopes := (growth_of_formed hm ⟨ctx.body, .subclass⟩
      (((w.bind name).useSuperclass name ref).enterClass true)).2 trivial
    have hmethods := (Effect.useSuperclass name ref (w.bind name)).trans
      ((Effect.enterClass true _).trans
        ((effect_of_formed hm ⟨ctx.body, .subclass⟩ _).trans_nil (.leaveClass true _)))
    have hheader := Walk.useSuperclass_scopes name ref (w.bind name)
    exact ⟨hn, Walk.unclaimed_of_bind (hmethods.clean h.clean), hheader,
      (Walk.leaveClass_scopes true hscopes).trans hheader⟩

/-- The parameters of a function are new one after the other. -/
theorem Settled.params {kind : BodyKind} {d : FunctionDecl}
    (h : Settled R ⟨⟨ctx, w, .function kind d⟩, ls⟩) :
    (∀ param ∈ d.params, Token.Plain param) ∧ (enterFunction d.params w).problems = #[] := by
  obtain ⟨is, h⟩ := h
  cases h.formed with
  | function hp hb =>
    exact ⟨hp, ((effect_of_formed hb ⟨kind, ctx.owner⟩ _).trans_nil (.leave _)).clean h.clean⟩

/-- Behind new names the innermost scope has them. -/
theorem Walk.binds_contain {names : List Token} (hn : ∀ name ∈ names, Token.Plain name) :
    ∀ {w : Walk} {a : Scope} {rest : List Scope}, w.scopes = a :: rest →
      (names.foldl (fun w name => w.bind name) w).problems = #[] →
      ∃ a', (names.foldl (fun w name => w.bind name) w).scopes = a' :: rest ∧
        ∀ name ∈ names, a'.contains name.lexeme = true := by
  -- The name of the first is kept by what is declared behind it (`Grown`).
  induction names with
  | nil => exact fun hs _ => ⟨_, hs, nofun⟩
  | cons name names ih =>
    intro w a rest hs hclean
    rw [List.forall_mem_cons] at hn
    rw [List.foldl_cons] at hclean ⊢
    have hnew := Walk.unclaimed_of_bind ((Effect.binds names _).clean hclean)
    obtain ⟨b, hb, hcontains⟩ := (Claims.bind hnew).inside a rest hs
    obtain ⟨a', ha', hall⟩ := ih hn.2 hb hclean
    have hgrown := Grown.binds hn.2 (w.bind name)
    rw [hb, ha'] at hgrown
    refine ⟨a', ha', List.forall_mem_cons.mpr ⟨?_, hall⟩⟩
    cases hgrown with
    | cons hadds =>
      refine hadds.keeps _ ?_
      rw [hcontains, decide_eq_true rfl, Bool.true_or]

/-- The layer of a function has the names of its parameters. -/
theorem Settled.param_names {kind : BodyKind} {d : FunctionDecl}
    (h : Settled R ⟨⟨ctx, w, .function kind d⟩, ls⟩) :
    ∀ param ∈ d.params, (functionLayer ctx w kind d).scope.contains param.lexeme = true := by
  obtain ⟨hplain, hclean⟩ := h.params
  obtain ⟨a, hscopes, hnames⟩ := Walk.binds_contain hplain (w := w.enter) rfl hclean
  obtain ⟨is, hsits⟩ := h.body
  have hcover := hsits.before
  rw [enterFunction, hscopes] at hcover
  cases hcover with
  | cons hfits _ => exact fun param hparam => hfits.names _ (hnames param hparam)

/-! ## Phrases -/

/-- The two operators with one operand. -/
theorem Settled.unary {op : Token} {e : Expr} (h : Settled R ⟨⟨ctx, w, .expr (.unary op e)⟩, ls⟩) :
    op.kind = .mark .bang ∨ op.kind = .mark .minus := by
  obtain ⟨is, h⟩ := h
  cases h.formed with
  | unary hop _ => exact hop

/-- The operators with two. -/
theorem Settled.binary {op : Token} {l r : Expr}
    (h : Settled R ⟨⟨ctx, w, .expr (.binary l op r)⟩, ls⟩) : op.kind ∈ binaryOperators := by
  obtain ⟨is, h⟩ := h
  cases h.formed with
  | binary hop _ _ => exact hop

/-- The branches declare nothing. -/
theorem Settled.ifElse {c : Expr} {t : Stmt} {e : Option Stmt}
    (h : Settled R ⟨⟨ctx, w, .stmt (.ifElse c t e)⟩, ls⟩) : t.IsQuiet ∧ ∀ b ∈ e, b.IsQuiet := by
  obtain ⟨is, h⟩ := h
  cases h.formed with
  | ifOnly ht _ _ => exact ⟨ht, nofun⟩
  | ifElse ht he _ _ _ => exact ⟨ht, fun b hb => Option.some.inj hb ▸ he⟩

/-- The body declares nothing. -/
theorem Settled.whileLoop {c : Expr} {b : Stmt}
    (h : Settled R ⟨⟨ctx, w, .stmt (.whileLoop c b)⟩, ls⟩) : b.IsQuiet := by
  obtain ⟨is, h⟩ := h
  cases h.formed with
  | whileLoop hb _ _ => exact hb

end Occurrences

/-! ## Classes -/

/-- A scope of `this` or `super` has that name and no other. -/
theorem Fits.contains_of_own {scope : Scope} {layer : Layer} (h : Fits scope layer) {own x : String}
    (hk : layer.kind.own? = some own) : scope.contains x = decide (x = own) := by
  have hown := h.own own hk
  by_cases hx : x = own
  · rw [hx, hown, decide_eq_true rfl]
  · rw [decide_eq_false hx, Bool.eq_false_iff]
    intro hc
    have hallowed := h.allowed x (h.names x hc)
    rw [LayerKind.Allows, hk] at hallowed
    exact hx hallowed

/-- The scope of a block or function has neither of the two. -/
theorem Fits.plain_of_body {scope : Scope} {layer : Layer} (h : Fits scope layer)
    (hk : layer.kind = .body) {x : String} (hx : scope.contains x = true) :
    x ≠ "this" ∧ x ≠ "super" := by
  have hallowed := h.allowed x (h.names x hx)
  rw [hk] at hallowed
  exact hallowed

/-- A scope with a name of its own choice is that of a block or a function. -/
theorem Fits.body_of_contains {scope : Scope} {layer : Layer} (h : Fits scope layer) {x : String}
    (hx : x ≠ "this" ∧ x ≠ "super") (hc : scope.contains x = true) : layer.kind = .body := by
  have hallowed := h.allowed x (h.names x hc)
  cases hk : layer.kind with
  | body => rfl
  | this =>
    rw [hk] at hallowed
    exact absurd hallowed hx.1
  | super =>
    rw [hk] at hallowed
    exact absurd hallowed hx.2

/-- The scope in which `this` is found is the innermost one of a method's instance. -/
theorem Covers.distance_this {scopes : List Scope} {layers : List Layer} {owner : ClassKind}
    (h : Covers scopes layers) (hs : Stack owner (layers.map Layer.kind)) (ho : owner ≠ .outside) :
    ∃ d layer, scopes.findIdx? (·.contains "this") = some d ∧ layers[d]? = some layer ∧
      layer.kind = .this := by
  -- Outward through the layers: blocks and functions have no `this`, and the first other layer is that of it.
  induction h generalizing owner with
  | nil =>
    cases hs
    exact absurd rfl ho
  | @cons a layer as rest hf _ ih =>
    rw [List.map_cons] at hs
    generalize hk : layer.kind = kind, hks : rest.map Layer.kind = kinds at hs
    rw [List.findIdx?_cons]
    cases hs with
    | body hs =>
      obtain ⟨d, inner, hd, hl, hi⟩ := ih (hks.symm ▸ hs) ho
      have hno : a.contains "this" = false :=
        Bool.eq_false_iff.mpr fun hc => (hf.plain_of_body hk hc).1 rfl
      exact ⟨d + 1, inner, by simp [hno, hd], hl, hi⟩
    | plain _ | subclass _ =>
      have hyes := hf.own "this" (by rw [hk]; rfl)
      exact ⟨0, layer, by simp [hyes], rfl, hk⟩

/-- Where `super` is found, `this` is found directly inside. -/
theorem Covers.distance_super {scopes : List Scope} {layers : List Layer}
    (h : Covers scopes layers) (hs : Stack .subclass (layers.map Layer.kind)) :
    ∃ d layer outer, scopes.findIdx? (·.contains "this") = some d ∧
      scopes.findIdx? (·.contains "super") = some (d + 1) ∧
      layers[d]? = some layer ∧ layer.kind = .this ∧
      layers[d + 1]? = some outer ∧ outer.kind = .super := by
  -- The same search for both names: they are found in layers next to each other.
  induction h with
  | nil => cases hs
  | @cons a layer as rest hf hrest ih =>
    rw [List.map_cons] at hs
    generalize hk : layer.kind = kind, hks : rest.map Layer.kind = kinds at hs
    cases hs with
    | body hs =>
      obtain ⟨d, inner, outer, hd, hd', hl, hi, hl', hi'⟩ := ih (hks.symm ▸ hs)
      have hthis : a.contains "this" = false :=
        Bool.eq_false_iff.mpr fun hc => (hf.plain_of_body hk hc).1 rfl
      have hsuper : a.contains "super" = false :=
        Bool.eq_false_iff.mpr fun hc => (hf.plain_of_body hk hc).2 rfl
      exact ⟨d + 1, inner, outer, by simp [List.findIdx?_cons, hthis, hd],
        by simp [List.findIdx?_cons, hsuper, hd'], hl, hi, hl', hi'⟩
    | subclass _ =>
      obtain ⟨outer, rest, rfl, hk', -⟩ := List.map_eq_cons_iff.mp hks
      cases hrest with
      | @cons b _ _ _ hf' _ =>
        have hthis := hf.contains_of_own (x := "this") (by rw [hk]; rfl)
        have hsuper := hf.contains_of_own (x := "super") (by rw [hk]; rfl)
        have hsuper' := hf'.own "super" (by rw [hk']; rfl)
        exact ⟨0, layer, outer, by simp [List.findIdx?_cons, hthis], by simp [List.findIdx?_cons, hsuper, hsuper'], rfl,
          hk, rfl, hk'⟩

end Lox.Scope
