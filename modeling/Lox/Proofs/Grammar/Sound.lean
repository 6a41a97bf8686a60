import Mathlib.Data.List.Forall2
import Lox.Proofs.Grammar.Gives

/-!
  What is read without a report can be derived.

  By induction on the fuel every rule gives derivations of its category (`sound`).  A rule that goes
  on behind what has been read already is said to extend its derivation.  The one thing outside of
  the grammar is the last expression of an interactive program, which may lack its semicolon
  (`Trailing`); it stands before the end, so no block has one inside.

  There is one lemma for each rule, `gives_forStatement` for `forStatement` and so on, and it goes through
  the rule from its first production to its last by the rules of `Gives`.  What the parts have given is
  collected on the way and used at the end, where it is put together to a derivation: so the last step of each
  case is the constructor of the grammar, with the derivations of the parts as its arguments.

  Three things are not read off one constructor.  An assignment is read as an expression, and only then it
  is seen that an equals sign follows; so its left side must be found again in the derivation of this
  expression (`call_of_target`).  The rules for operators are given a list of levels, and the grammar has tiers
  (`Level.Of`).  And the body of a loop or of a conditional is read as any statement, behind a check that it
  begins with a brace; without a report it is a block (`gives_body`).
-/

namespace Lox.Grammar

/-! ## Levels and tiers -/

/-- The level is that of the tier. -/
structure Level.Of (level : Level) (tier : Tier) : Prop where
  holds : ∀ kind, level.holds kind = true ↔ kind ∈ tier.operators
  build : ∀ left operator right, level.build left operator right = tier.tree left operator right

/-- The levels are the tiers, loosest first. -/
theorem levels_of_tiers : List.Forall₂ Level.Of levels Tier.all := by
  have marks (ms : List Mark) (tier : Tier)
      (hm : ∀ kind, kind ∈ tier.operators ↔ ∃ m ∈ ms, kind = .mark m)
      (ht : ∀ left operator right, Expr.binary left operator right = tier.tree left operator right) :
      Level.Of (levels.marks ms) tier := by
    refine ⟨fun kind => ?_, ht⟩
    rw [hm]
    cases kind <;> simp [levels.marks]
  -- The first two levels are those of keywords; on the four others there are marks only.
  refine .cons ⟨?_, fun _ _ _ => rfl⟩ (.cons ⟨?_, fun _ _ _ => rfl⟩ (.cons ?_ (.cons ?_
    (.cons ?_ (.cons ?_ .nil)))))
  · simp [Tier.operators]
  · simp [Tier.operators]
  · exact marks _ _ (by simp [Tier.operators]) fun _ _ _ => rfl
  · exact marks _ _ (by simp [Tier.operators]) fun _ _ _ => rfl
  · exact marks _ _ (by simp [Tier.operators]) fun _ _ _ => rfl
  · refine marks _ _ ?_ fun _ _ _ => rfl
    intro kind
    simp only [Tier.operators, List.mem_cons, List.not_mem_nil, or_false, exists_eq_or_imp,
      exists_eq_left]
    tauto

/-! ## What can be assigned to

  An assignment is read as an expression first, which is then looked at: it must be a name or a property. -/

/-- A tree that can be assigned to. -/
def Expr.IsTarget : Expr → Prop
  | .variable _ => True
  | .get _ _ => True
  | _ => False

/-- A variable and a property can be assigned to, and nothing else. -/
theorem assignment_cases {target value : Expr} {assign : Production Expr}
    (h : assignment? target value = some assign) :
    (∃ ref, target = .variable ref ∧
      assign = (freshRef ref.name >>= fun fresh => pure (.assign fresh value))) ∨
    (∃ object name, target = .get object name ∧ assign = pure (.set object name value)) := by
  unfold assignment? at h
  split at h
  · exact .inl ⟨_, rfl, (Option.some.inj h).symm⟩
  · exact .inr ⟨_, _, rfl, (Option.some.inj h).symm⟩
  · cases h

/-- A tree that can be assigned to has no operator outside. -/
theorem unary_of_operators {tiers : List Tier} {s u : Stand} {e : Expr} (ht : Expr.IsTarget e)
    (h : Derives (.operators tiers) s e u) : Derives .unary s e u := by
  induction tiers generalizing u e with
  | nil =>
    cases h with
    | unary h => exact h
  | cons tier tighter ih =>
    cases h with
    | operand h => exact ih ht h
    | operator _ _ _ => cases tier <;> exact ht.elim

/-- A tree that can be assigned to has been derived as a call. -/
theorem call_of_target {s u : Stand} {e : Expr} (ht : Expr.IsTarget e)
    (h : Derives .ternary s e u) : Derives .call s e u := by
  cases h with
  | operators h =>
    cases unary_of_operators ht h with
    | negated _ _ => exact ht.elim
    | lambda _ => exact ht.elim
    | call h => exact h
  | choice _ _ _ _ _ => exact ht.elim

/-- What has become a variable was a name, and no other token behind it. -/
theorem name_of_variable {s u : Stand} {ref : Ref} (h : Derives .call s (.variable ref) u) :
    ∃ name ts i, s = (name :: ts, i) ∧ name.IsName ∧ ref = ⟨i, name⟩ ∧ u = (ts, i + 1) := by
  cases h with
  | primary h =>
    cases h with
    | name hn => exact ⟨_, _, _, rfl, hn, rfl, rfl⟩

/-- What has become a property was a call with a dot and a name behind it. -/
theorem property_of_get {s u : Stand} {object : Expr} {name : Token}
    (h : Derives .call s (.get object name) u) :
    ∃ dot ts i, Derives .call s object (dot :: name :: ts, i) ∧ dot.IsMark .dot ∧ name.IsName ∧
      u = (ts, i) := by
  cases h with
  | primary h => cases h
  | property ho hd hn => exact ⟨_, _, _, ho, hd, hn, rfl⟩

/-- Behind what can be assigned to, an equals sign and an expression, the assignment is derived. -/
theorem gives_assignment {g : Setting} {s v : Stand} {target value : Expr} {equals : Token}
    {ts : List Token} {i : Nat} {assign : Production Expr}
    (ht : Derives .ternary s target (equals :: ts, i)) (he : equals.IsMark .equal)
    (hv : Derives .expression (ts, i) value v) (ha : assignment? target value = some assign) :
    Gives g v assign (Derives .expression s) := by
  rcases assignment_cases ha with ⟨ref, rfl, rfl⟩ | ⟨object, name, rfl, rfl⟩
  · obtain ⟨name, ts, i, rfl, hn, rfl, heq⟩ := name_of_variable (call_of_target trivial ht)
    cases heq
    exact .freshRef (.pure (.assignVariable hn he hv))
  · obtain ⟨dot, ts, i, ho, hd, hn, heq⟩ := property_of_get (call_of_target trivial ht)
    cases heq
    exact .pure (.assignProperty ho hd hn he hv)

/-! ## What the rules give -/

/-- The last expression of an interactive program, without a semicolon. -/
def Trailing (g : Setting) (s : Stand) (d : Stmt) (u : Stand) : Prop :=
  g.interactive = true ∧ u.1 = [] ∧ ∃ e, d = .value e ∧ Derives .expression s e u

/-- Declarations, behind which such an expression may stand. -/
def Trails (g : Setting) (s : Stand) (ds : List Stmt) (u : Stand) : Prop :=
  ∃ (before : List Stmt) (v : Stand), Derives (.declarations g.inLoop) s before v ∧
    (ds = before ∧ u = v ∨ ∃ d, ds = before ++ [d] ∧ Trailing g v d u)

/-- Each rule gives derivations of its category. -/
structure Sound (g : Setting) (fuel : Nat) : Prop where
  expression : ∀ s, Gives g s (expression fuel) (Derives .expression s)
  ternary : ∀ s, Gives g s (ternary fuel) (Derives .ternary s)
  operators : ∀ s levels tiers, List.Forall₂ Level.Of levels tiers →
    Gives g s (operators fuel levels) (Derives (.operators tiers) s)
  moreOperators : ∀ r s level tighter tier tiers left, level.Of tier →
    List.Forall₂ Level.Of tighter tiers → Derives (.operators (tier :: tiers)) r left s →
    Gives g s (moreOperators fuel level tighter left) (Derives (.operators (tier :: tiers)) r)
  unary : ∀ s, Gives g s (unary fuel) (Derives .unary s)
  calls : ∀ r s callee, Derives .call r callee s →
    Gives g s (calls fuel callee) (Derives .call r)
  primary : ∀ s, Gives g s (primary fuel) (Derives .primary s)
  arguments : ∀ s, Gives g s (arguments fuel) (Derives .argumentList s)
  routine : ∀ kind keyword ts i, keyword.IsKeyword .funcKw →
    Gives g (ts, i) (routine fuel kind keyword) (Derives (.routine kind) (keyword :: ts, i))
  methods : ∀ s, Gives g s (methods fuel) (Derives .methods s)
  declaration : ∀ s, Gives g s (declaration fuel) fun a u =>
    ∃ d, a = some d ∧ (Derives (.declaration g.inLoop) s d u ∨ Trailing g s d u)
  phrase : ∀ s, Gives g s (phrase fuel) fun d u =>
    Derives (.declaration g.inLoop) s d u ∨ Trailing g s d u
  classDeclaration : ∀ keyword ts i, keyword.IsKeyword .classKw →
    Gives g (ts, i) (classDeclaration fuel) (Derives (.declaration g.inLoop) (keyword :: ts, i))
  varDeclaration : ∀ keyword ts i, keyword.IsKeyword .varKw →
    Gives g (ts, i) (varDeclaration fuel) (Derives .varDecl (keyword :: ts, i))
  body : ∀ s, Gives g s (statement fuel) fun d u => s.Sees (.mark .leftBrace) →
    ∃ ds, d = .block ds ∧ Derives (.block g.inLoop) s ds u
  elseIf : ∀ s, s.Sees (.keyword .ifKw) →
    Gives g s (statement fuel) (Derives (.conditional g.inLoop) s)
  statement : ∀ s, Gives g s (statement fuel) fun d u =>
    Derives (.statement g.inLoop) s d u ∨ Trailing g s d u
  forStatement : ∀ s, g.inLoop = true → Gives g s (forStatement fuel) fun d u =>
    ∀ keyword inLoop, keyword.IsKeyword .forKw →
      Derives (.statement inLoop) (keyword :: s.1, s.2) d u
  whileStatement : ∀ s, g.inLoop = true → Gives g s (whileStatement fuel) fun d u =>
    ∀ keyword inLoop, keyword.IsKeyword .whileKw →
      Derives (.statement inLoop) (keyword :: s.1, s.2) d u
  ifStatement : ∀ keyword ts i, keyword.IsKeyword .ifKw →
    Gives g (ts, i) (ifStatement fuel) (Derives (.conditional g.inLoop) (keyword :: ts, i))
  returnStatement : ∀ keyword ts i, keyword.IsKeyword .returnKw →
    Gives g (ts, i) (returnStatement fuel keyword)
      (Derives (.statement g.inLoop) (keyword :: ts, i))
  block : ∀ left ts i, left.IsMark .leftBrace →
    Gives g (ts, i) (block fuel) (Derives (.block g.inLoop) (left :: ts, i))
  declarations : ∀ s inBlock, Gives g s (declarations fuel inBlock) fun ds u =>
    Trails g s ds u ∧ (inBlock = false → u.1 = []) ∧ (s.1 = [] → ds = [] ∧ u = s)
  expressionStatement : ∀ s, Gives g s (expressionStatement fuel) fun d u =>
    Derives (.statement g.inLoop) s d u ∨ Trailing g s d u

/-! ## Rule by rule

  Each lemma is about one rule, given all of them with less fuel (`Sound`). -/

section Rules

variable {g : Setting} {fuel : Nat}

/-- An expression is an assignment or what stands on its left side. -/
theorem gives_expression (ih : Sound g fuel) (s : Stand) :
    Gives g s (expression (fuel + 1)) (Derives .expression s) := by
  refine .bind (ih.ternary s) fun target v => ?_
  refine .acceptKind (fun equals ts i hv he => ?_) fun _ => .pure .ternary
  subst hv
  refine .bind (ih.expression _) fun value w => ?_
  cases ha : assignment? target value with
  | some assign =>
    refine .imp (tame_closed.assignment ha) fun hvalue => .imp (tame_closed.assignment ha) fun ht => ?_
    exact gives_assignment ht he hvalue ha
  | none =>
    rintro c hg rfl b e ⟨⟩
    refine ⟨.report c _, fun he => ?_⟩
    simp [Cursor.report] at he

/-- A condition, with two branches or with none. -/
theorem gives_ternary (ih : Sound g fuel) (s : Stand) :
    Gives g s (ternary (fuel + 1)) (Derives .ternary s) := by
  refine .bind (ih.operators s _ _ levels_of_tiers) fun condition v => ?_
  refine .acceptKind (fun question ts i hv hq => ?_) fun _ => .pure .operators
  subst hv
  refine .bind (ih.ternary _) fun thenBranch v => ?_
  refine .require fun colon us j hv hc => ?_
  subst hv
  refine .bind (ih.ternary _) fun elseBranch w => .pure ?_
  intro helse hthen hcondition
  exact .choice hcondition hq hthen hc helse

/-- An operand of the first level, which is then extended. -/
theorem gives_operators (ih : Sound g fuel) (s : Stand) {levels : List Level} {tiers : List Tier}
    (h : List.Forall₂ Level.Of levels tiers) :
    Gives g s (operators (fuel + 1) levels) (Derives (.operators tiers) s) := by
  cases h with
  | nil => exact (ih.unary s).mono fun _ _ => .unary
  | @cons level tier tighter tiers hl ht =>
    refine .bind (ih.operators s _ _ ht) fun left v => .imp ((tame fuel).moreOperators _ _ _) ?_
    exact fun hleft => ih.moreOperators s v _ _ _ _ _ hl ht (.operand hleft)

/-- One more operator of the level extends what has been derived, or there is none. -/
theorem gives_moreOperators (ih : Sound g fuel) {r s : Stand} {level : Level} {tier : Tier}
    {tighter : List Level} {tiers : List Tier} {left : Expr} (hl : level.Of tier)
    (ht : List.Forall₂ Level.Of tighter tiers)
    (hleft : Derives (.operators (tier :: tiers)) r left s) :
    Gives g s (moreOperators (fuel + 1) level tighter left)
      (Derives (.operators (tier :: tiers)) r) := by
  refine .accept (fun operator ts i hs ho => ?_) fun _ => .pure hleft
  subst hs
  refine .bind (ih.operators _ _ _ ht) fun right v => .imp ((tame fuel).moreOperators _ _ _) ?_
  intro hright
  refine ih.moreOperators r v _ _ _ _ _ hl ht ?_
  rw [hl.build]
  exact .operator hleft ((hl.holds _).mp ho) hright

/-- A prefix operator, a function without a name, or a call. -/
theorem gives_unary (ih : Sound g fuel) (s : Stand) :
    Gives g s (unary (fuel + 1)) (Derives .unary s) := by
  refine .accept (fun operator ts i hs ho => ?_) fun _ => .acceptKind (fun keyword ts i hs hk => ?_)
    fun _ => ?_
  · subst hs
    refine .bind (ih.unary _) fun right v => .pure fun hright => .negated ?_ hright
    unfold Token.IsMark
    split at ho <;> simp_all
  · subst hs
    exact .bind (ih.routine _ _ _ _ hk) fun d v => .pure .lambda
  · refine .bind (ih.primary s) fun callee v => .imp ((tame fuel).calls _) fun hcallee => ?_
    exact (ih.calls s v _ (.primary hcallee)).mono fun _ _ => .call

/-- One more suffix extends the call, or there is none. -/
theorem gives_calls (ih : Sound g fuel) {r s : Stand} {callee : Expr}
    (h : Derives .call r callee s) : Gives g s (calls (fuel + 1) callee) (Derives .call r) := by
  refine .acceptKind (fun left ts i hs hl => ?_) fun _ => .acceptKind (fun dot ts i hs hd => ?_)
    fun _ => .pure h
  · subst hs
    have close (given v) : Gives g v
        (expect .argumentsEnd >>= fun paren => calls fuel (.call callee paren given))
        fun e u => Derives .arguments (ts, i) given v → Derives .call r e u := by
      refine .require fun right us j hv hr => ?_
      subst hv
      exact .imp ((tame fuel).calls _) fun hgiven =>
        ih.calls r _ _ (.application h hl hgiven hr)
    refine .unlessSees ?_ (.bind ((ih.arguments _).mono fun _ _ => .someArguments) close)
    exact (close [] _).mono fun e u h => h .noArguments
  · subst hs
    refine .require fun name us j hv hn => ?_
    cases hv
    exact ih.calls r _ _ (.property h hd hn)

/-- Each kind of token that is a constant has a rule of its own. -/
theorem derives_constant {t : Token} {ts : List Token} {i : Nat}
    (h : (constant? t.kind).isSome = true) :
    Derives .primary (t :: ts, i) (.literal ((constant? t.kind).getD .nil)) (ts, i) := by
  cases ht : t.kind with
  | mark m => simp [ht, constant?] at h
  | identifier => simp [ht, constant?] at h
  | eof => simp [ht, constant?] at h
  | number x => exact .number ht
  | string x => exact .string ht
  | keyword k =>
    cases k with
    | trueKw => exact .trueConstant ht
    | falseKw => exact .falseConstant ht
    | nilKw => exact .nilConstant ht
    | _ => simp [ht, constant?] at h

/-- The atoms in the order in which they are looked for. -/
theorem gives_primary (ih : Sound g fuel) (s : Stand) :
    Gives g s (primary (fuel + 1)) (Derives .primary s) := by
  refine .accept (fun t ts i hs ht => ?_) fun _ => .acceptKind (fun name ts i hs hn => ?_) fun _ =>
    .acceptKind (fun left ts i hs hl => ?_) fun _ => .acceptKind (fun keyword ts i hs hk => ?_)
    fun _ => .acceptKind (fun keyword ts i hs hk => ?_) fun _ => ?_
  · subst hs
    exact .pure (derives_constant ht)
  · subst hs
    exact .freshRef (.pure (.name hn))
  · subst hs
    refine .bind (ih.expression _) fun inner v => .require fun right us j hv hr => .pure ?_
    subst hv
    exact fun hinner => .grouping hl hinner hr
  · subst hs
    exact .freshRef (.pure (.this hk))
  · subst hs
    refine .require fun dot us j hv hd => .require fun method vs k hw hm => ?_
    cases hv
    cases hw
    exact .freshRef (.pure (.super hk hd hm))
  -- No atom has been found, and that is a failure.
  · rintro c hg hs e d ⟨⟩

/-- An argument, and others behind a comma. -/
theorem gives_arguments (ih : Sound g fuel) (s : Stand) :
    Gives g s (arguments (fuel + 1)) (Derives .argumentList s) := by
  refine .bind (ih.expression s) fun first v => .acceptKind (fun comma ts i hv hc => ?_)
    fun _ => .pure .lastArgument
  subst hv
  exact .bind (ih.arguments _) fun rest w => .pure fun hrest hfirst => .argument hfirst hc hrest

/-- A name, and others behind a comma. -/
theorem gives_parameters (fuel : Nat) (s : Stand) :
    Gives g s (parameters fuel) (Derives .parameterList s) := by
  induction fuel generalizing s with
  | zero => rintro c hg hs names d ⟨⟩
  | succ fuel ih =>
    refine .require fun first ts i hs hf => ?_
    subst hs
    refine .acceptKind (fun comma us j hv hc => ?_) fun _ => .pure (.lastParameter hf)
    cases hv
    exact .bind (ih _) fun rest w => .pure fun hrest => .parameter hf hc hrest

/-- Behind the name of a function come its parameters in parentheses and its body, in no loop. -/
theorem gives_signature (ih : ∀ g, Sound g fuel) {kind : Routine} {name : Option Token}
    {keyword : Token} {ts : List Token} {i : Nat} {Q : FunctionDecl → Stand → Prop}
    (hQ : ∀ left us params right vs j body u, ts = left :: us → left.IsMark .leftParen →
      Derives .parameters (us, i) params (right :: vs, j) → right.IsMark .rightParen →
      Derives (.block false) (vs, j) body u → Q (.mk name keyword params body) u) :
    Gives g (ts, i) (do
      let _ ← expect (.parametersStart kind)
      let params ← unlessSees (.mark .rightParen) [] (parameters fuel)
      let _ ← expect .parametersEnd
      let _ ← expect (.bodyStart kind)
      let body ← withLoops (fun _ => 0) (block fuel)
      pure (.mk name keyword params body)) Q := by
  refine .require fun left us j hs hl => ?_
  cases hs
  -- What follows on the parameters, whether there are any or none.
  have rest (params v) : Gives g v (do
      let _ ← expect .parametersEnd
      let _ ← expect (.bodyStart kind)
      let body ← withLoops (fun _ => 0) (block fuel)
      pure (.mk name keyword params body))
      fun d u => Derives .parameters (us, i) params v → Q d u := by
    refine .require fun right vs j hv hr => .require fun brace ws k hw hb => ?_
    cases hv
    cases hw
    refine .bind (.withLoops (fun n => rfl) ((ih _).block brace ws _ hb)) fun body u => .pure ?_
    exact fun hbody hparams => hQ _ _ _ _ _ _ _ _ rfl hl hparams hr hbody
  refine .unlessSees ?_ (.bind ((gives_parameters fuel _).mono fun _ _ => .someParameters) rest)
  exact (rest [] _).mono fun d u h => h .noParameters

/-- The body of a function is no part of a loop around it. -/
theorem gives_routine (ih : ∀ g, Sound g fuel) (kind : Routine) {keyword : Token}
    (ts : List Token) (i : Nat) (hk : keyword.IsKeyword .funcKw) :
    Gives g (ts, i) (routine (fuel + 1) kind keyword)
      (Derives (.routine kind) (keyword :: ts, i)) := by
  rw [routine, routineName]
  by_cases hkind : kind = .lambda
  · subst hkind
    rw [if_pos rfl, pure_bind]
    refine gives_signature ih ?_
    rintro left us params right vs j body u rfl hl hparams hr hbody
    exact .anonymous hk hl hparams hr hbody
  · rw [if_neg hkind, bind_map_left]
    refine .require fun name us j hs hn => ?_
    cases hs
    refine gives_signature ih ?_
    rintro left us params right vs j body u rfl hl hparams hr hbody
    exact .routine hkind hk hn hl hparams hr hbody

/-- Up to the brace there are methods, each with `func` in front. -/
theorem gives_methods (ih : Sound g fuel) (s : Stand) :
    Gives g s (methods (fuel + 1)) (Derives .methods s) := by
  have stop : Gives g s (pure []) (Derives .methods s) := .pure .noMethods
  have go : Gives g s (do
      let keyword ← require (.keyword .funcKw) .noMethod
      let first ← routine fuel .method keyword
      return first :: (← methods fuel)) (Derives .methods s) := by
    refine .require fun keyword ts i hs hk => ?_
    subst hs
    refine .bind (ih.routine .method _ _ _ hk) fun first v => .bind (ih.methods v) fun rest w => ?_
    exact .pure fun hrest hfirst => .method hfirst hrest
  exact .sees (fun _ => .atEnd (fun _ => stop) fun _ => stop)
    fun _ => .atEnd (fun _ => stop) fun _ => go

/-- A declaration begins with its keyword, or it is a statement and does not begin with `func`. -/
theorem gives_phrase (ih : Sound g fuel) (s : Stand) :
    Gives g s (phrase (fuel + 1)) fun d u =>
      Derives (.declaration g.inLoop) s d u ∨ Trailing g s d u := by
  refine .acceptKind (fun keyword ts i hs hk => ?_) fun _ => .acceptKind (fun keyword ts i hs hk => ?_)
    fun hfunc => .acceptKind (fun keyword ts i hs hk => ?_) fun _ => ?_
  · subst hs
    exact (ih.classDeclaration _ ts i hk).mono fun d u => .inl
  · subst hs
    refine .bind (ih.routine .function _ _ _ hk) fun d v => .pure fun hd => .inl (.function hd)
  · subst hs
    exact (ih.varDeclaration _ ts i hk).mono fun d u hd => .inl (.varDecl hd)
  · refine (ih.statement s).mono fun d u => Or.imp_left (.statement ?_)
    intro t ht
    obtain ⟨ts, hts⟩ := List.head?_eq_some_iff.mp ht
    exact hfunc t ts s.2 (Prod.ext hts rfl)

/-- A name behind `<`, or nothing. -/
theorem gives_superclass (s : Stand) :
    Gives g s superclassClause (Derives .superclass s) := by
  rw [← bind_pure superclassClause]
  refine .behind (fun less ts i hs hl => ?_) (.pure .noSuperclass)
  subst hs
  rw [bind_assoc]
  refine .require fun name us j hs hn => ?_
  cases hs
  exact .freshRef (.pure (.extending hl hn))

/-- The name of a class, its superclass and its methods. -/
theorem gives_classDeclaration (ih : Sound g fuel) {keyword : Token} (ts : List Token) (i : Nat)
    (hk : keyword.IsKeyword .classKw) :
    Gives g (ts, i) (classDeclaration (fuel + 1))
      (Derives (.declaration g.inLoop) (keyword :: ts, i)) := by
  refine .require fun name us j hs hn => .bind (gives_superclass _) fun superclass v =>
    .require fun left us j hv hl => .bind (ih.methods _) fun methods w =>
    .require fun right vs k hw hr => .pure ?_
  cases hs
  subst hv hw
  exact fun hmethods hsuper => .classDecl hk hn hsuper hl hmethods hr

/-- The name of a variable, with a value behind an equals sign or without one. -/
theorem gives_varDeclaration (ih : Sound g fuel) {keyword : Token} (ts : List Token) (i : Nat)
    (hk : keyword.IsKeyword .varKw) :
    Gives g (ts, i) (varDeclaration (fuel + 1)) (Derives .varDecl (keyword :: ts, i)) := by
  refine .require fun name us j hs hn => .behind (fun equals vs k hv he => ?_) ?_
  · cases hs
    cases hv
    refine .bind (ih.expression _) fun value w => .require fun stop ws k hw ht => .pure ?_
    subst hw
    exact fun hvalue => .set hk hn he hvalue ht
  · cases hs
    refine .require fun stop vs k hv ht => .pure ?_
    cases hv
    exact .unset hk hn ht

/-- What may be left out in front of a token is left out or is an expression. -/
theorem gives_optional (ih : Sound g fuel) {α : Type} {kind : TokenKind} {s : Stand}
    {f : Option Expr → Production α} {Q : α → Stand → Prop}
    (h : ∀ e v, Gives g v (f e) fun a u => Derives .optional s e v → Q a u) :
    Gives g s (unlessSees kind none (some <$> expression fuel) >>= f) Q := by
  refine .unlessSees ((h none s).mono fun a u hq => hq .omitted) ?_
  rw [bind_map_left]
  exact .bind (ih.expression s) fun e v => (h (some e) v).mono fun a u hq he => hq (.given he)

/-- The value of a `return` may be left out. -/
theorem gives_returnStatement (ih : Sound g fuel) {keyword : Token} (ts : List Token) (i : Nat)
    (hk : keyword.IsKeyword .returnKw) :
    Gives g (ts, i) (returnStatement (fuel + 1) keyword)
      (Derives (.statement g.inLoop) (keyword :: ts, i)) := by
  refine gives_optional ih fun value v => .require fun stop us j hv ht => .pure ?_
  subst hv
  exact fun hvalue => .returnValue hk hvalue ht

/-- A `break` outside of every loop is reported, so there is a loop around. -/
theorem gives_breakStatement {keyword : Token} (ts : List Token) (i : Nat)
    (hk : keyword.IsKeyword .breakKw) :
    Gives g (ts, i) (breakStatement keyword)
      (Derives (.statement g.inLoop) (keyword :: ts, i)) := by
  -- In a loop nothing is reported, and the semicolon must follow; outside of one the report contradicts
  -- acceptance.
  have rest : Gives g (ts, i) (do
      let _ ← expect .breakEnd
      pure (.breakLoop keyword))
      fun d u => g.inLoop = true → Derives (.statement g.inLoop) (keyword :: ts, i) d u := by
    refine .require fun stop us j hs ht => .pure fun hl => ?_
    cases hs
    rw [hl]
    exact .breakLoop hk ht
  intro c hg hs d u hrun
  replace hrun : (if c.loopDepth = 0 then report keyword .strayBreak >>= fun _ => do
      let _ ← expect .breakEnd
      pure (Stmt.breakLoop keyword) else do
      let _ ← expect .breakEnd
      pure (Stmt.breakLoop keyword)) c = .done d u := hrun
  split at hrun
  · have hcd := Follows.report c (.syntactic keyword .strayBreak)
    obtain ⟨hde, -⟩ := rest _ (hg.of_follows hcd) hs d u hrun
    refine ⟨hcd.trans hde, fun hu => absurd (hde.clean hu) ?_⟩
    simp [Cursor.report]
  · rename_i hl
    obtain ⟨hde, hQ⟩ := rest c hg hs d u hrun
    refine ⟨hde, fun hu => hQ hu ?_⟩
    rw [← hg.inLoop]
    exact decide_eq_true (Nat.pos_of_ne_zero hl)

/-- A body that has been checked is a block. -/
theorem gives_body (ih : Sound g fuel) {owner : BlockOwner} {s : Stand}
    {f : Stmt → Production Stmt} {Q : Stmt → Stand → Prop}
    (h : ∀ body v, Gives g v (f (.block body)) fun d u =>
      Derives (.block g.inLoop) s body v → Q d u) (ht : ∀ d, Tame (f d)) :
    Gives g s (checkBlock owner >>= fun _ => statement fuel >>= f) Q := by
  refine .checkBlock (.bind (ih.body s) fun body v => ?_)
  by_cases hbody : ∃ ds, body = .block ds ∧ Derives (.block g.inLoop) s ds v
  · obtain ⟨ds, rfl, hds⟩ := hbody
    exact (h ds v).mono fun d u hq _ _ => hq hds
  -- What is not a block does not begin like one, so it has been reported.
  · exact .of_tame (ht body) fun d u hex hsees => absurd (hex hsees) hbody

/-- The condition and the body of a loop; the keyword has been read before. -/
theorem gives_whileStatement (ih : Sound g fuel) (s : Stand) (hg : g.inLoop = true) :
    Gives g s (whileStatement (fuel + 1)) fun d u => ∀ keyword inLoop,
      keyword.IsKeyword .whileKw → Derives (.statement inLoop) (keyword :: s.1, s.2) d u := by
  refine .bind (ih.expression s) fun condition v =>
    gives_body ih (fun body w => .pure ?_) fun d => tame_closed.pure _
  intro hbody hcondition keyword inLoop hk
  rw [hg] at hbody
  exact .whileLoop hk hcondition hbody

/-- The tree that is made of a counting loop with a block for its body is that of the grammar. -/
theorem countingLoop_block (initializer : Option Stmt) (condition increment : Option Expr)
    (body : List Stmt) : countingLoop initializer condition increment (.block body) =
      loopTree condition increment body initializer := by
  cases initializer <;> cases increment <;> rfl

/-- A semicolon, a declaration of a variable, or an expression. -/
theorem gives_initializer (ih : Sound g fuel) (s : Stand) :
    Gives g s (loopInitializer (varDeclaration fuel) (expression fuel))
      (Derives .initializer s) := by
  refine .acceptKind (fun stop ts i hs ht => ?_) fun _ => .acceptKind (fun keyword ts i hs hk => ?_)
    fun _ => ?_
  · subst hs
    exact .pure (.noInitializer ht)
  · subst hs
    exact .map ((ih.varDeclaration _ ts i hk).mono fun d u => .variableInitializer)
  · refine .bind (ih.expression s) fun first v => .require fun stop ts i hv ht => .pure ?_
    subst hv
    exact fun hfirst => .expressionInitializer hfirst ht

/-- The three parts of the head, and the body. -/
theorem gives_forStatement (ih : Sound g fuel) (s : Stand) (hg : g.inLoop = true) :
    Gives g s (forStatement (fuel + 1)) fun d u => ∀ keyword inLoop,
      keyword.IsKeyword .forKw → Derives (.statement inLoop) (keyword :: s.1, s.2) d u := by
  refine .bind (gives_initializer ih s) fun initializer v => gives_optional ih fun condition w =>
    .require fun stop ts i hw ht => gives_optional ih fun increment x =>
    gives_body ih (fun body y => .pure ?_) fun d => tame_closed.pure _
  subst hw
  intro hbody hincrement hcondition hinitializer keyword inLoop hk
  rw [hg] at hbody
  rw [countingLoop_block]
  exact .forLoop hk hinitializer hcondition ht hincrement hbody

/-- A conditional, with a block or with another one behind `else`, or with neither. -/
theorem gives_ifStatement (ih : Sound g fuel) {keyword : Token} (ts : List Token) (i : Nat)
    (hk : keyword.IsKeyword .ifKw) :
    Gives g (ts, i) (ifStatement (fuel + 1))
      (Derives (.conditional g.inLoop) (keyword :: ts, i)) := by
  -- A branch that is no block is only reported, so the rest must be tame in that case, too.
  refine .bind (ih.expression _) fun condition v => gives_body ih (fun thenBranch w => ?_) ?_
  · refine .acceptKind (fun otherwise us j hw ho => ?_) fun _ => .pure ?_
    · subst hw
      refine .sees (fun hif => .bind (ih.elseIf _ hif) fun elseBranch x => .pure ?_)
        fun _ => gives_body ih (fun elseBranch x => .pure ?_) fun d => tame_closed.pure _
      · exact fun helse hthen hcondition => .elseIf hk hcondition hthen ho helse
      · exact fun helse hthen hcondition => .ifElse hk hcondition hthen ho helse
    · exact fun hthen hcondition => .ifOnly hk hcondition hthen
  · intro d
    refine tame_closed.bind (tame_closed.accept _) fun otherwise => ?_
    cases otherwise with
    | none => exact tame_closed.pure _
    | some otherwise =>
      refine tame_closed.bind (tame_closed.sees _) fun isIf => ?_
      have last := tame_closed.bind (tame fuel).statement fun elseBranch =>
        tame_closed.pure (Stmt.ifElse condition d (some elseBranch))
      split
      · exact last
      · exact tame_closed.bind (tame_closed.checkBlock _) fun _ => last

/-- A block has no expression without a semicolon, for behind this there would be no brace. -/
theorem gives_block (ih : Sound g fuel) {left : Token} (ts : List Token) (i : Nat)
    (hl : left.IsMark .leftBrace) :
    Gives g (ts, i) (block (fuel + 1)) (Derives (.block g.inLoop) (left :: ts, i)) := by
  refine .bind (ih.declarations _ true) fun body v => .require fun right us j hv hr => .pure ?_
  subst hv
  rintro ⟨⟨before, w, hbefore, hbody | ⟨d, -, htrailing⟩⟩, -⟩
  · obtain ⟨rfl, rfl⟩ := hbody
    exact .block hl hbefore hr
  -- Such an expression ends where the tokens do.
  · cases htrailing.2.1

/-- A statement that begins with a keyword or a brace is read by the rule for it. -/
theorem gives_statement (ih : ∀ g, Sound g fuel) (s : Stand) :
    Gives g s (statement (fuel + 1)) fun d u =>
      Derives (.statement g.inLoop) s d u ∨ Trailing g s d u := by
  refine .accept (fun t ts i hs ht => ?_) fun _ => (ih g).expressionStatement s
  subst hs
  dsimp only
  split
  · rename_i hk
    have hdepth (n : Nat) : decide (0 < n + 1) = true := by simp
    refine .withLoops hdepth ?_
    exact ((ih _).forStatement (ts, i) rfl).mono fun d u hd => .inl (hd t g.inLoop hk)
  · rename_i hk
    have hdepth (n : Nat) : decide (0 < n + 1) = true := by simp
    refine .withLoops hdepth ?_
    exact ((ih _).whileStatement (ts, i) rfl).mono fun d u hd => .inl (hd t g.inLoop hk)
  · rename_i hk
    exact ((ih g).ifStatement t ts i hk).mono fun d u hd => .inl (.conditional hd)
  · rename_i hk
    exact ((ih g).returnStatement t ts i hk).mono fun d u => .inl
  · rename_i hk
    exact (gives_breakStatement ts i hk).mono fun d u => .inl
  · rename_i hfor hwhile hif hreturn hbreak
    -- Of the tokens that begin a statement only the brace is left.
    have hl : t.IsMark .leftBrace := by
      unfold Token.IsMark
      unfold startsStatement at ht
      split at ht
      · simp_all
      · simp_all
      · cases ht
    exact .bind ((ih g).block t ts i hl) fun body v => .pure fun hbody => .inl (.blockStatement hbody)

/-- What begins with a brace is a block. -/
theorem gives_statement_of_brace (ih : Sound g fuel) {s : Stand}
    (hs : s.Sees (.mark .leftBrace)) :
    Gives g s (statement (fuel + 1)) fun d u =>
      ∃ ds, d = .block ds ∧ Derives (.block g.inLoop) s ds u := by
  obtain ⟨left, ts, hts, hl⟩ := hs
  refine .accept (fun t us i hs ht => ?_) fun hnone => ?_
  · subst hs
    cases hts
    dsimp only
    rw [hl]
    exact .bind (ih.block left ts i hl) fun body v => .pure fun hbody => ⟨body, rfl, hbody⟩
  · have h := hnone left ts s.2 (Prod.ext hts rfl)
    rw [hl] at h
    cases h

/-- What begins with `if` is a conditional. -/
theorem gives_statement_of_if (ih : Sound g fuel) {s : Stand} (hs : s.Sees (.keyword .ifKw)) :
    Gives g s (statement (fuel + 1)) (Derives (.conditional g.inLoop) s) := by
  obtain ⟨keyword, ts, hts, hk⟩ := hs
  refine .accept (fun t us i hs ht => ?_) fun hnone => ?_
  · subst hs
    cases hts
    dsimp only
    rw [hk]
    exact ih.ifStatement keyword ts i hk
  · have h := hnone keyword ts s.2 (Prod.ext hts rfl)
    rw [hk] at h
    cases h

/-- An expression and its semicolon, or in interactive use an expression at the end. -/
theorem gives_expressionStatement (ih : Sound g fuel) (s : Stand) :
    Gives g s (expressionStatement (fuel + 1)) fun d u =>
      Derives (.statement g.inLoop) s d u ∨ Trailing g s d u := by
  -- With its semicolon; without one only at the end of an interactive line.
  have stop (value v) : Gives g v (do
      let _ ← expect .expressionEnd
      pure (.expression value))
      fun d u => Derives .expression s value v →
        Derives (.statement g.inLoop) s d u ∨ Trailing g s d u := by
    refine .require fun stop ts i hv ht => .pure ?_
    subst hv
    exact fun hvalue => .inl (.expressionStatement hvalue ht)
  refine .bind (ih.expression s) fun value v => ?_
  rintro c hg rfl d e hrun
  replace hrun : (if (c.interactive && c.atEnd) = true then pure (Stmt.value value) else do
      let _ ← expect .expressionEnd
      pure (Stmt.expression value)) c = .done d e := hrun
  split at hrun
  · rename_i hi
    cases hrun
    rw [Bool.and_eq_true, hg.interactive] at hi
    refine ⟨.refl c, fun _ hvalue => .inr ⟨hi.1, ?_, value, rfl, hvalue⟩⟩
    exact List.isEmpty_iff.mp hi.2
  · exact stop value _ c hg rfl d e hrun

/-- Declarations up to the end, or in a block up to its brace. -/
theorem gives_declarations (ih : Sound g fuel) (s : Stand) (inBlock : Bool) :
    Gives g s (declarations (fuel + 1) inBlock) fun ds u =>
      Trails g s ds u ∧ (inBlock = false → u.1 = []) ∧ (s.1 = [] → ds = [] ∧ u = s) := by
  have nil : Trails g s [] s := ⟨[], s, .noDeclarations, .inl ⟨rfl, rfl⟩⟩
  refine .atEnd (fun hs => ?_) fun hs => ?_
  · have stop : Gives g s (pure []) fun ds u =>
        Trails g s ds u ∧ (inBlock = false → u.1 = []) ∧ (s.1 = [] → ds = [] ∧ u = s) :=
      .pure ⟨nil, fun _ => hs, fun _ => ⟨rfl, rfl⟩⟩
    exact .sees (fun _ => stop) fun _ => stop
  · -- There is a declaration to be read: the first, and then the rest by induction on the fuel.
    have go : Gives g s (do
        let first ← declaration fuel
        let rest ← declarations fuel inBlock
        pure (first.toList ++ rest)) fun ds u =>
        Trails g s ds u ∧ (inBlock = false → u.1 = []) ∧ (s.1 = [] → ds = [] ∧ u = s) := by
      refine .bind (ih.declaration s) fun first v => .bind (ih.declarations v inBlock)
        fun rest w => .pure ?_
      rintro ⟨hrest, hend, hnil⟩ ⟨d, rfl, hd | hd⟩
      · refine ⟨?_, hend, fun h => absurd h hs⟩
        obtain ⟨before, x, hbefore, hrest⟩ := hrest
        refine ⟨d :: before, x, .declarations hd hbefore, ?_⟩
        rcases hrest with ⟨rfl, rfl⟩ | ⟨last, rfl, hlast⟩
        · exact .inl ⟨rfl, rfl⟩
        · exact .inr ⟨last, rfl, hlast⟩
      · obtain ⟨rfl, rfl⟩ := hnil hd.2.1
        exact ⟨⟨[], s, .noDeclarations, .inr ⟨d, rfl, hd⟩⟩, hend, fun h => absurd h hs⟩
    refine .sees (fun _ => ?_) fun _ => ?_
    · cases inBlock with
      | true => exact .pure ⟨nil, nofun, fun h => absurd h hs⟩
      | false => exact go
    · cases inBlock <;> exact go

/-- **Each rule gives derivations of its category.** -/
theorem sound (g : Setting) (fuel : Nat) : Sound g fuel := by
  induction fuel generalizing g with
  | zero => constructor <;> intros <;> rintro c hg hs a d ⟨⟩
  | succ fuel ih =>
    exact
      { expression := gives_expression (ih g)
        ternary := gives_ternary (ih g)
        operators := fun s _ _ => gives_operators (ih g) s
        moreOperators := fun _ _ _ _ _ _ _ => gives_moreOperators (ih g)
        unary := gives_unary (ih g)
        calls := fun _ _ _ => gives_calls (ih g)
        primary := gives_primary (ih g)
        arguments := gives_arguments (ih g)
        routine := fun kind _ => gives_routine ih kind
        methods := gives_methods (ih g)
        declaration := fun s => .recover ((ih g).phrase s) (tame fuel).phrase
        phrase := gives_phrase (ih g)
        classDeclaration := fun _ => gives_classDeclaration (ih g)
        varDeclaration := fun _ => gives_varDeclaration (ih g)
        body := fun s => .imp (tame _).statement (gives_statement_of_brace (ih g))
        elseIf := fun s => gives_statement_of_if (ih g)
        statement := gives_statement ih
        forStatement := gives_forStatement (ih g)
        whileStatement := gives_whileStatement (ih g)
        ifStatement := fun _ => gives_ifStatement (ih g)
        returnStatement := fun _ => gives_returnStatement (ih g)
        block := fun _ => gives_block (ih g)
        declarations := gives_declarations (ih g)
        expressionStatement := gives_expressionStatement (ih g) }

end Rules

end Lox.Grammar
