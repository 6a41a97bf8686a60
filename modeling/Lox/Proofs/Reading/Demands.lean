import Lox.Proofs.Reading.Calls

/-!
  What the deeds of a rule are.

  Of some things it is enough to look through the recipe of a rule once, without running it: how many loops
  there are around a call compared with the caller, and about which tokens problems are told.

  * A `Demand` says what calls and reports have to be like: a property of the tokens at hand, and for a call the
    number of loops around it as a function of those around its caller.
  * A recipe meets a demand (`Recipe.Meets`) if all that is written in it does; this is defined by its
    constructors, with what each part yields (`Recipe.Yields`) assumed of the parts behind it.
  * A recipe that meets a demand does only such deeds (`Recipe.Does.meets`).

  Every rule meets the demand that is made here (`Meets.ofRule`): a `break` is told to be stray only by the rule
  of statements, every problem is told about a token at hand, and the loops around a call are those of the
  caller, one more for the body of a loop and none for that of a function (`Rule.loopsAround`).
-/

namespace Lox.Grammar

variable {α β : Type} {ρ : Reading}

/-! ## Demands

  What a recipe demands of the calls in it, for whatever is reported in the course of it to obey a rule. -/

/-- What is asked of the deeds of a recipe. -/
structure Demand where
  /-- What is known of the tokens that are read. -/
  token : Token → Prop
  /-- The call of a rule, where the number of loops has been changed. -/
  call : (Nat → Nat) → Rule → Prop
  tell : Token → SyntacticFault → Prop

namespace Recipe

/-- The answer may be that of the recipe, as far as is known without running it. -/
def Yields (M : Token → Prop) : {α : Type} → Recipe α → α → Prop
  | _, acceptWhere _, answer => ∀ t ∈ answer, M t
  | _, look view _, answer => ∃ c, M c.current ∧ answer = view c
  | _, _, _ => True

/-- All deeds in the recipe are as demanded; the function is how the number of loops has been changed
    so far. -/
def Meets (D : Demand) (depth : Nat → Nat) : {α : Type} → Recipe α → Prop
  | _, bind x f => x.Meets D depth ∧ ∀ a, x.Yields D.token a → (f a).Meets D depth
  | _, report token fault => D.tell token fault
  | _, fail fault => ∀ t, D.token t → D.tell t fault
  | _, withLoops change x => x.Meets D (change ∘ depth)
  | _, recover x => x.Meets D depth
  | _, rule r => D.call depth r
  | _, _ => True

/-- What a recipe that runs answers with. -/
theorem yields_of_run {M : Token → Prop} {x : Recipe α} {c d : Cursor} {a : α}
    (h : x.run ρ c = .done a d) (hM : ∀ t ∈ c.ahead, M t) (hfinish : M c.finish) : x.Yields M a := by
  -- Only a token that is accepted and a look at the current one yield a token, and both are at hand.
  cases x with
  | acceptWhere fits =>
    rw [run, Grammar.acceptWhere] at h
    repeat' split at h
    all_goals cases h
    · rename_i t rest hc _
      rintro _ ⟨⟩
      exact hM _ (by simp [hc])
    all_goals rintro _ ⟨⟩
  | look view blind =>
    cases h
    refine ⟨c, ?_, rfl⟩
    unfold Cursor.current
    cases hc : c.ahead with
    | nil => exact hfinish
    | cons t rest => exact hM t (by simp [hc])
  | _ => exact trivial

end Recipe

/-- The deed, at a cursor, is as demanded; it was done on the way from a place with so many loops. -/
def Deed.Obeys (D : Demand) (loops : Nat) (d : Cursor) : Deed → Prop
  | look => True
  | call r => ∃ depth, D.call depth r ∧ d.loopDepth = depth loops
  | tell problem => ∃ token fault, problem = .syntactic token fault ∧ D.tell token fault

/-- **All deeds are as demanded.** -/
theorem Recipe.Does.meets {D : Demand} {x : Recipe α} {c d : Cursor} {deed : Deed} {depth : Nat → Nat}
    {loops : Nat} (h : x.Does ρ c deed d) (hx : x.Meets D depth) (hρ : ∀ r, Tame (ρ r))
    (htokens : ∀ t ∈ c.ahead, D.token t) (hfinish : D.token c.finish)
    (hdepth : c.loopDepth = depth loops) : deed.Obeys D loops d := by
  -- The number of loops is that of the caller, changed as the recipe says up to there; the tokens at hand get
  -- fewer.
  induction x generalizing c depth with
  | bind x f ihx ihf =>
    rcases h with h | ⟨a, e, hxc, h⟩
    · exact ihx h hx.1 htokens hfinish hdepth
    · have hce := tame_closed.ofRecipe hρ x c e (by rw [hxc]; rfl)
      refine ihf a h (hx.2 a (yields_of_run hxc htokens hfinish)) ?_ ?_ ?_
      · exact fun t ht => htokens t (hce.ahead.subset ht)
      · exact hce.finish ▸ hfinish
      · exact hce.loopDepth.trans hdepth
  | withLoops change x ih => exact ih h hx htokens hfinish (congrArg change hdepth)
  | recover x ih => exact ih h hx htokens hfinish hdepth
  | rule r =>
    obtain ⟨rfl, rfl⟩ := h
    exact ⟨depth, hx, hdepth⟩
  | report token fault =>
    obtain ⟨rfl, rfl⟩ := h
    exact ⟨token, fault, rfl, hx⟩
  | fail fault =>
    obtain ⟨rfl, rfl⟩ := h
    refine ⟨d.current, fault, rfl, hx _ ?_⟩
    unfold Cursor.current
    cases hd : d.ahead with
    | nil => exact hfinish
    | cons t rest => exact htokens t (by simp [hd])
  | acceptWhere fits =>
    obtain ⟨rfl, -⟩ := h
    exact trivial
  | look view blind =>
    obtain ⟨rfl, -⟩ := h
    exact trivial
  | pure a => exact h.elim
  | number name => exact h.elim

/-! ## The demand that rules meet -/

/-- How many loops are around a call, of the same function body, if there are so many around the
    caller. -/
def Rule.loopsAround (caller called : Rule) (loops : Nat) : Nat :=
  match caller, called with
  | _, .forStatement | _, .whileStatement => loops + 1
  | .routine .., .block => 0
  | _, _ => loops

/-- Problems are told about tokens that are read, and a `break` is told to be stray only where a
    statement is read. -/
def Rule.demand (r : Rule) (M : Token → Prop) : Demand where
  token := M
  call change q := ∀ n, change n = r.loopsAround q n
  tell token fault := M token ∧ (fault = .strayBreak → r = .statement)

namespace Recipe.Meets

/-! ## What is in the small recipes -/

section Small

variable {D : Demand} {depth : Nat → Nat}

/-- Nothing is done. -/
theorem pure (a : α) : (Pure.pure a : Recipe α).Meets D depth := trivial

/-- The second part is looked through for whatever the first one yields. -/
theorem bind {x : Recipe α} {f : α → Recipe β} (hx : x.Meets D depth) (hf : ∀ a, (f a).Meets D depth) :
    (x >>= f).Meets D depth :=
  ⟨hx, fun a _ => hf a⟩

theorem map {f : α → β} {x : Recipe α} (hx : x.Meets D depth) : (f <$> x).Meets D depth :=
  ⟨hx, fun _ _ => trivial⟩

/-- Behind a token that may be read it is one of those that are read. -/
theorem accept {fits : TokenKind → Bool} {f : Option Token → Recipe α}
    (hsome : ∀ t, D.token t → (f (some t)).Meets D depth) (hnone : (f none).Meets D depth) :
    (acceptWhere fits >>= f).Meets D depth := by
  refine ⟨trivial, fun t ht => ?_⟩
  cases t with
  | some t => exact hsome t (ht t rfl)
  | none => exact hnone

/-- A look does nothing that is asked about. -/
theorem look {view : Cursor → α} {blind : ∀ c problems, view { c with problems := problems } = view c}
    {f : α → Recipe β} (hf : ∀ a, (f a).Meets D depth) : (Recipe.look view blind >>= f).Meets D depth :=
  bind trivial hf

theorem number {name : Token} {f : Ref → Recipe α} (hf : ∀ ref, (f ref).Meets D depth) :
    (Recipe.number name >>= f).Meets D depth :=
  bind trivial hf

/-- A part that may be left out. -/
theorem unlessSees {kind : TokenKind} {default : α} {x : Recipe α} (hx : x.Meets D depth) :
    (unlessSees kind default x).Meets D depth := by
  refine look fun seen => ?_
  cases seen with
  | true => exact pure default
  | false => exact hx

/-- A part behind a mark. -/
theorem behind {kind : TokenKind} {x : Recipe α} (hx : x.Meets D depth) :
    (behind kind x).Meets D depth :=
  accept (fun _ _ => map hx) (pure none)

variable (hD : ∀ t fault, D.token t → fault ≠ .strayBreak → D.tell t fault)
include hD

/-- A token that is missing is told about where it is missing. -/
theorem require {kind : TokenKind} {fault : SyntacticFault} (hf : fault ≠ .strayBreak) :
    (require kind fault).Meets D depth :=
  accept (fun t _ => pure t) fun t ht => hD t fault ht hf

theorem expect (place : Place) : (expect place).Meets D depth := require hD nofun

theorem expectName (role : NameRole) : (expectName role).Meets D depth := require hD nofun

/-- A target that cannot be assigned to is told about at the equals sign, which is at hand. -/
theorem assignmentTo {target : Expr} {right : Recipe Expr} (hr : right.Meets D depth) :
    (assignmentTo target right).Meets D depth := by
  refine accept (fun equals hequals => bind hr fun value => ?_) (pure target)
  have hinvalid : (report equals .invalidTarget >>= fun _ => Pure.pure target).Meets D depth :=
    bind (hD equals _ hequals nofun) fun _ => pure target
  cases target with
  | «variable» ref => exact number fun _ => pure _
  | get object name => exact pure _
  | _ => exact hinvalid

/-- The branches of a choice. -/
theorem choiceBy {condition : Expr} {branch : Recipe Expr} (hb : branch.Meets D depth) :
    (choiceBy condition branch).Meets D depth :=
  accept (fun _ _ => bind hb fun _ => bind (expect hD _) fun _ => bind hb fun _ => pure _) (pure _)

/-- The problem is told about the token at the front. -/
theorem checkBlock (owner : BlockOwner) : (checkBlock owner).Meets D depth := by
  refine look fun seen => ?_
  cases seen with
  | true => exact pure ()
  | false =>
    refine ⟨trivial, fun t ht => ?_⟩
    obtain ⟨c, hc, rfl⟩ := ht
    exact hD _ _ hc nofun

theorem loopInitializer {varDecl : Recipe Stmt} {value : Recipe Expr} (hd : varDecl.Meets D depth)
    (hv : value.Meets D depth) : (loopInitializer varDecl value).Meets D depth :=
  accept (fun _ _ => pure none) (accept (fun _ _ => map hd)
    (bind hv fun _ => bind (expect hD _) fun _ => pure _))

theorem routineName (kind : Routine) : (routineName kind).Meets D depth := by
  rw [Recipe.routineName]
  split
  · exact pure none
  · exact map (expectName hD _)

theorem superclassClause : superclassClause.Meets D depth :=
  behind (bind (expectName hD _) fun _ => trivial)

end Small

/-! ## What is in the recipes of the rules -/

/-- **Every rule meets its demand.** -/
theorem ofRule (r : Rule) (M : Token → Prop) : (ofRule r).Meets (r.demand M) id := by
  have hD : ∀ t fault, (r.demand M).token t → fault ≠ .strayBreak → (r.demand M).tell t fault :=
    fun t fault ht hf => ⟨ht, fun h => absurd h hf⟩
  -- Most calls leave the number of loops alone.
  have call {q : Rule} (h : ∀ n, r.loopsAround q n = n) : (rule q).Meets (r.demand M) id :=
    fun n => (h n).symm
  cases r with
  | expression => exact .bind (call fun _ => rfl) fun _ => assignmentTo hD (call fun _ => rfl)
  | ternary => exact .bind (call fun _ => rfl) fun _ => choiceBy hD (call fun _ => rfl)
  | operators levels =>
    cases levels with
    | nil => exact call fun _ => rfl
    | cons level tighter => exact .bind (call fun _ => rfl) fun _ => call fun _ => rfl
  | moreOperators level tighter left =>
    exact accept (fun _ _ => .bind (call fun _ => rfl) fun _ => call fun _ => rfl) (pure left)
  | unary =>
    refine accept (fun _ _ => .bind (call fun _ => rfl) fun _ => pure _) ?_
    refine accept (fun _ _ => .bind (call fun _ => rfl) fun _ => pure _) ?_
    exact .bind (call fun _ => rfl) fun _ => call fun _ => rfl
  | calls callee =>
    refine accept (fun _ _ => ?_) (accept (fun _ _ => ?_) (pure callee))
    · exact .bind (unlessSees (call fun _ => rfl)) fun _ => .bind (expect hD _) fun _ => call fun _ => rfl
    · exact .bind (expectName hD _) fun _ => call fun _ => rfl
  | arguments =>
    refine .bind (call fun _ => rfl) fun _ => accept (fun _ _ => ?_) (pure _)
    exact .bind (call fun _ => rfl) fun _ => pure _
  | primary =>
    refine accept (fun _ _ => pure _) (accept (fun _ _ => number fun _ => pure _) ?_)
    refine accept (fun _ _ => ?_) (accept (fun _ _ => number fun _ => pure _) ?_)
    · exact .bind (call fun _ => rfl) fun _ => .bind (expect hD _) fun _ => pure _
    · refine accept (fun _ _ => ?_) fun t ht => hD t _ ht nofun
      exact .bind (expect hD _) fun _ => .bind (expectName hD _) fun _ => number fun _ => pure _
  | parameters =>
    refine .bind (expectName hD _) fun _ => accept (fun _ _ => ?_) (pure _)
    exact .bind (call fun _ => rfl) fun _ => pure _
  | routine kind keyword =>
    refine .bind (routineName hD _) fun _ => .bind (expect hD _) fun _ => ?_
    refine .bind (unlessSees (call fun _ => rfl)) fun _ => .bind (expect hD _) fun _ => ?_
    -- The body is in no loop.
    have body : (withLoops (fun _ => 0) (rule .block)).Meets (Rule.demand (.routine kind keyword) M) id :=
      fun _ => rfl
    exact .bind (expect hD _) fun _ => .bind body fun _ => pure _
  | methods =>
    refine look fun atBrace => look fun ended => ?_
    split
    · exact pure []
    · exact .bind (require hD nofun) fun _ => .bind (call fun _ => rfl) fun _ =>
        .bind (call fun _ => rfl) fun _ => pure _
  | declaration => exact call fun _ => rfl
  | phrase =>
    refine accept (fun _ _ => call fun _ => rfl) (accept (fun _ _ => ?_) ?_)
    · exact .bind (call fun _ => rfl) fun _ => pure _
    · exact accept (fun _ _ => call fun _ => rfl) (call fun _ => rfl)
  | classDeclaration =>
    refine .bind (expectName hD _) fun _ => .bind (superclassClause hD) fun _ => ?_
    exact .bind (expect hD _) fun _ => .bind (call fun _ => rfl) fun _ => .bind (expect hD _) fun _ =>
      pure _
  | varDeclaration =>
    exact .bind (expectName hD _) fun _ => .bind (behind (call fun _ => rfl)) fun _ =>
      .bind (expect hD _) fun _ => pure _
  | statement =>
    refine accept (fun token htoken => ?_) (call fun _ => rfl)
    dsimp only
    split
    · exact fun _ => rfl
    · exact fun _ => rfl
    · exact call fun _ => rfl
    · exact call fun _ => rfl
    · -- A `break` is told about by its own token.
      have close : (Recipe.expect .breakEnd >>= fun _ => Pure.pure (Stmt.breakLoop token)).Meets
          (Rule.statement.demand M) id := .bind (expect hD _) fun _ => pure _
      refine look fun loops => ?_
      dsimp only
      split
      · exact .bind ⟨htoken, fun _ => rfl⟩ fun _ => close
      · exact close
    · exact .bind (call fun _ => rfl) fun _ => pure _
  | forStatement =>
    refine .bind (loopInitializer hD (call fun _ => rfl) (call fun _ => rfl)) fun _ => ?_
    refine .bind (unlessSees (map (call fun _ => rfl))) fun _ => .bind (expect hD _) fun _ => ?_
    refine .bind (unlessSees (map (call fun _ => rfl))) fun _ => .bind (checkBlock hD _) fun _ => ?_
    exact .bind (call fun _ => rfl) fun _ => pure _
  | whileStatement =>
    exact .bind (call fun _ => rfl) fun _ => .bind (checkBlock hD _) fun _ =>
      .bind (call fun _ => rfl) fun _ => pure _
  | ifStatement =>
    refine .bind (call fun _ => rfl) fun _ => .bind (checkBlock hD _) fun _ => ?_
    refine .bind (call fun _ => rfl) fun _ => accept (fun _ _ => look fun isIf => ?_) (pure _)
    cases isIf with
    | true => exact .bind (call fun _ => rfl) fun _ => pure _
    | false => exact .bind (checkBlock hD _) fun _ => .bind (call fun _ => rfl) fun _ => pure _
  | returnStatement keyword =>
    exact .bind (unlessSees (map (call fun _ => rfl))) fun _ => .bind (expect hD _) fun _ => pure _
  | block => exact .bind (call fun _ => rfl) fun _ => .bind (expect hD _) fun _ => pure _
  | declarations inBlock =>
    refine look fun ended => look fun atBrace => ?_
    split
    · exact pure []
    · exact .bind (call fun _ => rfl) fun _ => .bind (call fun _ => rfl) fun _ => pure _
  | expressionStatement =>
    refine .bind (call fun _ => rfl) fun _ => look fun interactive => look fun ended => ?_
    split
    · exact pure _
    · exact .bind (expect hD _) fun _ => pure _

end Recipe.Meets

/-- What a call does itself is as its rule demands. -/
theorem Call.Does.obeys {κ : Call} {deed : Deed} {d : Cursor} (h : κ.Does deed d) {M : Token → Prop}
    (htokens : ∀ t ∈ κ.cursor.ahead, M t) (hfinish : M κ.cursor.finish) :
    deed.Obeys (κ.rule.demand M) κ.cursor.loopDepth d := by
  cases h with
  | by_recipe h => exact h.meets (.ofRule _ M) (fun q => q.tame _) htokens hfinish rfl

end Lox.Grammar
