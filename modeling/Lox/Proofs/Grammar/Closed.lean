import Lox.Grammar.Rules

/-!
  Laws of all productions.

  The rules are put together from single tokens, sequences, changes of the number of loops and the
  recovery at declarations.  A law that combines along these ways holds of the small productions,
  which call no rule; if it also holds without fuel and through recoveries, it holds of every rule
  with any fuel.  One induction on the fuel does this for all laws (`Closed.rules`).

  A law is a predicate of productions of any answer, `P : {α : Type} → Production α → Prop`.  That a
  production only follows the cursor, that it is at its place in the tokens, that it does as much
  with more fuel: each of them is such a law, and for each the eight or ten fields of `Combines` and `Closed`
  are all that has to be shown.  A rule that changes has its one case changed here, and not one in every
  law.

  Twenty-two rules call one another, so the induction is on the fuel and gives all of them at once
  (`Rules`); its step is one case for each rule, in the shape of its definition (`Closed.rules_succ`).
-/

namespace Lox.Grammar

/-- The law passes through sequences and holds of what they are made of. -/
structure Combines (P : {α : Type} → Production α → Prop) : Prop where
  pure : ∀ {α : Type} (a : α), P (pure a : Production α)
  bind : ∀ {α β : Type} {x : Production α} {f : α → Production β},
    P x → (∀ a, P (f a)) → P (x >>= f)
  acceptWhere : ∀ fits, P (acceptWhere fits)
  read : ∀ {α : Type} (view : Cursor → α), P (.read view : Production α)
  report : ∀ token fault, P (report token fault)
  failHere : ∀ {α : Type} fault, P (failHere fault : Production α)
  freshRef : ∀ name, P (freshRef name)
  withLoops : ∀ {α : Type} depth {x : Production α}, P x → P (withLoops depth x)

/-- The law passes through every way in which rules are put together. -/
structure Closed (P : {α : Type} → Production α → Prop) : Prop extends Combines P where
  outOfFuel : ∀ {α : Type}, P (.outOfFuel : Production α)
  recover : ∀ {α : Type} {x : Production α}, P x → P (.recover (some <$> x) resume)

/-- The law holds of every rule with so much fuel. -/
structure Rules (P : {α : Type} → Production α → Prop) (fuel : Nat) : Prop where
  expression : P (expression fuel)
  ternary : P (ternary fuel)
  operators : ∀ levels, P (operators fuel levels)
  moreOperators : ∀ level tighter left, P (moreOperators fuel level tighter left)
  unary : P (unary fuel)
  calls : ∀ callee, P (calls fuel callee)
  arguments : P (arguments fuel)
  primary : P (primary fuel)
  routine : ∀ kind keyword, P (routine fuel kind keyword)
  methods : P (methods fuel)
  declaration : P (declaration fuel)
  phrase : P (phrase fuel)
  classDeclaration : P (classDeclaration fuel)
  varDeclaration : P (varDeclaration fuel)
  statement : P (statement fuel)
  forStatement : P (forStatement fuel)
  whileStatement : P (whileStatement fuel)
  ifStatement : P (ifStatement fuel)
  returnStatement : ∀ keyword, P (returnStatement fuel keyword)
  block : P (block fuel)
  declarations : ∀ inBlock, P (declarations fuel inBlock)
  expressionStatement : P (expressionStatement fuel)

namespace Combines

variable {P : {α : Type} → Production α → Prop} (h : Combines P)
include h

/-! ## The small productions

  They are put together from the steps that the property is closed under. -/

/-- A map is a sequence with a pure end. -/
theorem map {α β : Type} {x : Production α} (f : α → β) (hx : P x) : P (f <$> x) := by
  rw [map_eq_pure_bind]
  exact h.bind hx fun a => h.pure (f a)

/-- A token by its kind is one that fits. -/
theorem accept (kind : TokenKind) : P (accept kind) := h.acceptWhere _

/-- A token by its mark is one that fits. -/
theorem acceptMark (marks : List Mark) : P (acceptMark marks) := h.acceptWhere _

/-- A look reads the cursor only. -/
theorem sees (kind : TokenKind) : P (sees kind) := h.read _

/-- A look for the end reads the cursor only. -/
theorem atEnd : P atEnd := h.read _

/-- A token that is missing is a failure. -/
theorem require (kind : TokenKind) (fault : SyntacticFault) : P (require kind fault) := by
  refine h.bind (h.accept kind) fun token => ?_
  cases token with
  | some token => exact h.pure token
  | none => exact h.failHere fault

/-- A mark in its place is a token that must be there. -/
theorem expect (place : Place) : P (expect place) := h.require _ _

/-- A name in its role is a token that must be there. -/
theorem expectName (role : NameRole) : P (expectName role) := h.require _ _

/-- A part that may be left out. -/
theorem unlessSees {α : Type} (kind : TokenKind) (default : α) {x : Production α} (hx : P x) :
    P (unlessSees kind default x) := by
  refine h.bind (h.sees kind) fun b => ?_
  split
  · exact h.pure default
  · exact hx

/-- A part with a token of its own in front. -/
theorem behind {α : Type} (kind : TokenKind) {x : Production α} (hx : P x) :
    P (behind kind x) := by
  refine h.bind (h.accept kind) fun token => ?_
  cases token with
  | some token => exact h.map some hx
  | none => exact h.pure none

/-- A block that is missing is reported and nothing else. -/
theorem checkBlock (owner : BlockOwner) : P (checkBlock owner) := by
  refine h.bind (h.sees _) fun b => ?_
  split
  · exact h.pure ()
  · exact h.bind (h.read _) fun token => h.report token _

/-- The superclass, if one is named. -/
theorem superclassClause : P superclassClause :=
  h.behind _ (h.bind (h.expectName _) h.freshRef)

/-- An assignment to what can be assigned to. -/
theorem assignment {target value : Expr} {assign : Production Expr}
    (ha : assignment? target value = some assign) : P assign := by
  unfold assignment? at ha
  split at ha
  · cases ha
    exact h.bind (h.freshRef _) fun ref => h.pure _
  · cases ha
    exact h.pure _
  · cases ha

/-- The right side of an assignment; a wrong left side is reported, and then it is the answer. -/
theorem assignmentTo (target : Expr) {right : Production Expr} (hr : P right) :
    P (assignmentTo target right) := by
  refine h.bind (h.accept _) fun equals => ?_
  cases equals with
  | none => exact h.pure target
  | some equals =>
    refine h.bind hr fun value => ?_
    split
    · rename_i ha
      exact h.assignment ha
    · exact h.bind (h.report _ _) fun _ => h.pure target

/-- The branches of a conditional expression. -/
theorem choiceBy (condition : Expr) {branch : Production Expr} (hb : P branch) :
    P (choiceBy condition branch) := by
  refine h.bind (h.accept _) fun question => ?_
  cases question with
  | none => exact h.pure condition
  | some question =>
    exact h.bind hb fun _ => h.bind (h.expect _) fun _ => h.bind hb fun _ => h.pure _

/-- A `break`, be it reported or not. -/
theorem breakStatement (keyword : Token) : P (breakStatement keyword) := by
  have close : P (Lox.Grammar.expect .breakEnd >>= fun _ => Pure.pure (Stmt.breakLoop keyword)) :=
    h.bind (h.expect _) fun _ => h.pure _
  refine h.bind (h.read _) fun depth => ?_
  split
  · exact h.bind (h.report _ _) fun _ => close
  · exact close

/-- The initializer of a loop, of three kinds. -/
theorem loopInitializer {varDecl : Production Stmt} {value : Production Expr} (hd : P varDecl)
    (hv : P value) : P (loopInitializer varDecl value) := by
  refine h.bind (h.accept _) fun stop => ?_
  cases stop with
  | some stop => exact h.pure none
  | none =>
    refine h.bind (h.accept _) fun keyword => ?_
    cases keyword with
    | some keyword => exact h.map some hd
    | none => exact h.bind hv fun first => h.bind (h.expect _) fun _ => h.pure _

/-- The name of a function that has one. -/
theorem routineName (kind : Routine) : P (routineName kind) := by
  rw [Lox.Grammar.routineName]
  split
  · exact h.pure none
  · exact h.map some (h.expectName _)

end Combines

/-! ## The rules

  A property of productions that is closed under the steps holds of every rule, with whatever fuel. -/

namespace Closed

variable {P : {α : Type} → Production α → Prop} (h : Closed P)
include h

/-- Parameters call no rule but themselves, so they have an induction of their own. -/
theorem parameters (fuel : Nat) : P (parameters fuel) := by
  induction fuel with
  | zero => exact h.outOfFuel
  | succ fuel ih =>
    refine h.bind (h.expectName _) fun first => h.bind (h.accept _) fun comma => ?_
    cases comma with
    | some comma => exact h.bind ih fun rest => h.pure _
    | none => exact h.pure _

/-- Of each rule the law holds with more fuel if it holds of all rules with less: the rules call
    one another only with less fuel. -/
theorem rules_succ {fuel : Nat} (ih : Rules P fuel) : Rules P (fuel + 1) where
  -- Each rule is written with the steps that the law is closed under, in the order of its definition.
  expression := h.bind ih.ternary fun target => h.assignmentTo target ih.expression
  ternary := h.bind (ih.operators _) fun condition => h.choiceBy condition ih.ternary
  operators := by
    intro levels
    cases levels with
    | nil => exact ih.unary
    | cons level tighter => exact h.bind (ih.operators _) fun left => ih.moreOperators _ _ _
  moreOperators := by
    intro level tighter left
    refine h.bind (h.acceptWhere _) fun operator => ?_
    cases operator with
    | none => exact h.pure left
    | some operator => exact h.bind (ih.operators _) fun right => ih.moreOperators _ _ _
  unary := by
    refine h.bind (h.acceptMark _) fun operator => ?_
    cases operator with
    | some operator => exact h.bind ih.unary fun right => h.pure _
    | none =>
      refine h.bind (h.accept _) fun keyword => ?_
      cases keyword with
      | some keyword => exact h.bind (ih.routine _ _) fun d => h.pure _
      | none => exact h.bind ih.primary fun callee => ih.calls _
  calls := by
    intro callee
    refine h.bind (h.accept _) fun left => ?_
    cases left with
    | some left =>
      exact h.bind (h.unlessSees _ _ ih.arguments) fun given => h.bind (h.expect _) fun paren =>
        ih.calls _
    | none =>
      refine h.bind (h.accept _) fun dot => ?_
      cases dot with
      | some dot => exact h.bind (h.expectName _) fun name => ih.calls _
      | none => exact h.pure callee
  arguments := by
    refine h.bind ih.expression fun first => h.bind (h.accept _) fun comma => ?_
    cases comma with
    | some comma => exact h.bind ih.arguments fun rest => h.pure _
    | none => exact h.pure _
  primary := by
    refine h.bind (h.acceptWhere _) fun token => ?_
    cases token with
    | some token => exact h.pure _
    | none =>
      refine h.bind (h.accept _) fun name => ?_
      cases name with
      | some name => exact h.bind (h.freshRef _) fun ref => h.pure _
      | none =>
        refine h.bind (h.accept _) fun left => ?_
        cases left with
        | some left =>
          exact h.bind ih.expression fun inner => h.bind (h.expect _) fun _ => h.pure _
        | none =>
          refine h.bind (h.accept _) fun keyword => ?_
          cases keyword with
          | some keyword => exact h.bind (h.freshRef _) fun ref => h.pure _
          | none =>
            refine h.bind (h.accept _) fun keyword => ?_
            cases keyword with
            | some keyword =>
              exact h.bind (h.expect _) fun _ => h.bind (h.expectName _) fun method =>
                h.bind (h.freshRef _) fun ref => h.pure _
            | none => exact h.failHere _
  routine := by
    intro kind keyword
    exact h.bind (h.routineName _) fun name => h.bind (h.expect _) fun _ =>
      h.bind (h.unlessSees _ _ (h.parameters _)) fun params => h.bind (h.expect _) fun _ =>
      h.bind (h.expect _) fun _ => h.bind (h.withLoops _ ih.block) fun body => h.pure _
  methods := by
    refine h.bind (h.sees _) fun atBrace => h.bind h.atEnd fun ended => ?_
    split
    · exact h.pure _
    · exact h.bind (h.require _ _) fun keyword => h.bind (ih.routine _ _) fun first =>
        h.bind ih.methods fun rest => h.pure _
  declaration := h.recover ih.phrase
  phrase := by
    refine h.bind (h.accept _) fun keyword => ?_
    cases keyword with
    | some keyword => exact ih.classDeclaration
    | none =>
      refine h.bind (h.accept _) fun keyword => ?_
      cases keyword with
      | some keyword => exact h.bind (ih.routine _ _) fun d => h.pure _
      | none =>
        refine h.bind (h.accept _) fun keyword => ?_
        cases keyword with
        | some keyword => exact ih.varDeclaration
        | none => exact ih.statement
  classDeclaration := by
    exact h.bind (h.expectName _) fun name => h.bind h.superclassClause fun superclass =>
      h.bind (h.expect _) fun _ => h.bind ih.methods fun body => h.bind (h.expect _) fun _ =>
      h.pure _
  varDeclaration := by
    exact h.bind (h.expectName _) fun name => h.bind (h.behind _ ih.expression) fun initializer =>
      h.bind (h.expect _) fun _ => h.pure _
  statement := by
    refine h.bind (h.acceptWhere _) fun token => ?_
    cases token with
    | none => exact ih.expressionStatement
    | some token =>
      dsimp only
      split
      · exact h.withLoops _ ih.forStatement
      · exact h.withLoops _ ih.whileStatement
      · exact ih.ifStatement
      · exact ih.returnStatement _
      · exact h.breakStatement _
      · exact h.bind ih.block fun body => h.pure _
  forStatement := by
    exact h.bind (h.loopInitializer ih.varDeclaration ih.expression) fun initializer =>
      h.bind (h.unlessSees _ _ (h.map some ih.expression)) fun condition =>
      h.bind (h.expect _) fun _ =>
      h.bind (h.unlessSees _ _ (h.map some ih.expression)) fun increment =>
      h.bind (h.checkBlock _) fun _ => h.bind ih.statement fun body => h.pure _
  whileStatement := by
    exact h.bind ih.expression fun condition => h.bind (h.checkBlock _) fun _ =>
      h.bind ih.statement fun body => h.pure _
  ifStatement := by
    refine h.bind ih.expression fun condition => h.bind (h.checkBlock _) fun _ =>
      h.bind ih.statement fun thenBranch => h.bind (h.accept _) fun otherwise => ?_
    cases otherwise with
    | none => exact h.pure _
    | some otherwise =>
      refine h.bind (h.sees _) fun isIf => ?_
      split
      · exact h.bind ih.statement fun elseBranch => h.pure _
      · exact h.bind (h.checkBlock _) fun _ => h.bind ih.statement fun elseBranch => h.pure _
  returnStatement := by
    intro keyword
    exact h.bind (h.unlessSees _ _ (h.map some ih.expression)) fun value =>
      h.bind (h.expect _) fun _ => h.pure _
  block := by
    exact h.bind (ih.declarations _) fun body => h.bind (h.expect _) fun _ => h.pure _
  declarations := by
    intro inBlock
    refine h.bind h.atEnd fun ended => h.bind (h.sees _) fun atBrace => ?_
    split
    · exact h.pure _
    · exact h.bind ih.declaration fun first => h.bind (ih.declarations _) fun rest => h.pure _
  expressionStatement := by
    refine h.bind ih.expression fun value => h.bind (h.read _) fun interactive =>
      h.bind h.atEnd fun ended => ?_
    split
    · exact h.pure _
    · exact h.bind (h.expect _) fun _ => h.pure _

/-- **A law of the ways to put productions together is a law of all rules.** -/
theorem rules (fuel : Nat) : Rules P fuel := by
  induction fuel with
  | zero => constructor <;> intros <;> exact h.outOfFuel
  | succ fuel ih => exact h.rules_succ ih

end Closed

end Lox.Grammar
