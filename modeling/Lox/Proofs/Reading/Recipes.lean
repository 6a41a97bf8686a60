import Lox.Grammar.Program

/-!
  The rules as data.

  A production only shows how it ends.  What it comes to on the way (which rule it calls where, and what it
  reports) is seen in how it is put together, and of a function nothing can be said about that.  So each rule is
  written down once more as data.

  * `Rule` names the rules, with their arguments, and `Rule.read` is the production of a rule.
  * A `Recipe` says how a production is put together: single tokens, looks at the cursor, reports, sequences,
    changes of the number of loops, recoveries and calls of rules.  A look is one that does not see what has
    been reported; its proof is part of the recipe.
  * `Recipe.ofRule` is the recipe of each rule, and `Recipe.run` puts a recipe together again, with a reading
    for the rules that it calls.

  Reading by a rule is running its recipe, with less fuel for the rules that it calls (`run_ofRule`,
  `Rule.read_succ`).  This is the one theorem of the module; all that is shown of recipes by induction on their
  constructors is with it a fact about the parser.
-/

namespace Lox.Grammar

/-! ## The rules by name -/

/-- The rules. -/
inductive Rule where
  | expression
  | ternary
  | operators (levels : List Level)
  | moreOperators (level : Level) (tighter : List Level) (left : Expr)
  | unary
  | calls (callee : Expr)
  | arguments
  | primary
  | parameters
  | routine (kind : Routine) (keyword : Token)
  | methods
  | declaration
  | phrase
  | classDeclaration
  | varDeclaration
  | statement
  | forStatement
  | whileStatement
  | ifStatement
  | returnStatement (keyword : Token)
  | block
  | declarations (inBlock : Bool)
  | expressionStatement

namespace Rule

/-- What the rule makes. -/
@[reducible] def Tree : Rule → Type
  | expression | ternary | operators _ | moreOperators .. | unary | calls _ | primary => Expr
  | arguments => List Expr
  | parameters => List Token
  | routine .. => FunctionDecl
  | methods => List FunctionDecl
  | declaration => Option Stmt
  | phrase | classDeclaration | varDeclaration | statement | forStatement | whileStatement
  | ifStatement | returnStatement _ | expressionStatement => Stmt
  | block | declarations _ => List Stmt

/-- Reading by the rule. -/
def read : (r : Rule) → Nat → Production r.Tree
  | expression, fuel => Grammar.expression fuel
  | ternary, fuel => Grammar.ternary fuel
  | operators levels, fuel => Grammar.operators fuel levels
  | moreOperators level tighter left, fuel => Grammar.moreOperators fuel level tighter left
  | unary, fuel => Grammar.unary fuel
  | calls callee, fuel => Grammar.calls fuel callee
  | arguments, fuel => Grammar.arguments fuel
  | primary, fuel => Grammar.primary fuel
  | parameters, fuel => Grammar.parameters fuel
  | routine kind keyword, fuel => Grammar.routine fuel kind keyword
  | methods, fuel => Grammar.methods fuel
  | declaration, fuel => Grammar.declaration fuel
  | phrase, fuel => Grammar.phrase fuel
  | classDeclaration, fuel => Grammar.classDeclaration fuel
  | varDeclaration, fuel => Grammar.varDeclaration fuel
  | statement, fuel => Grammar.statement fuel
  | forStatement, fuel => Grammar.forStatement fuel
  | whileStatement, fuel => Grammar.whileStatement fuel
  | ifStatement, fuel => Grammar.ifStatement fuel
  | returnStatement keyword, fuel => Grammar.returnStatement fuel keyword
  | block, fuel => Grammar.block fuel
  | declarations inBlock, fuel => Grammar.declarations fuel inBlock
  | expressionStatement, fuel => Grammar.expressionStatement fuel

/-- Without fuel no rule reads anything. -/
theorem read_zero (r : Rule) : r.read 0 = .outOfFuel := by
  cases r <;> rfl

end Rule

/-! ## Recipes -/

/-- How a production is put together. -/
inductive Recipe : Type → Type 1 where
  | pure {α : Type} (a : α) : Recipe α
  | bind {α β : Type} (x : Recipe α) (f : α → Recipe β) : Recipe β
  /-- The token at the front, if it is of a kind that fits. -/
  | acceptWhere (fits : TokenKind → Bool) : Recipe (Option Token)
  /-- A look at the cursor, which does not see what has been reported. -/
  | look {α : Type} (view : Cursor → α)
    (blind : ∀ c problems, view { c with problems := problems } = view c) : Recipe α
  | report (token : Token) (fault : SyntacticFault) : Recipe Unit
  /-- A failure at the token at the front. -/
  | fail {α : Type} (fault : SyntacticFault) : Recipe α
  /-- The number of an occurrence of a name. -/
  | number (name : Token) : Recipe Ref
  | withLoops {α : Type} (depth : Nat → Nat) (x : Recipe α) : Recipe α
  | recover {α : Type} (x : Recipe α) : Recipe (Option α)
  /-- The call of a rule. -/
  | rule (r : Rule) : Recipe r.Tree

/-- A reading for each rule. -/
abbrev Reading : Type := (r : Rule) → Production r.Tree

namespace Recipe

variable {α β : Type}

instance : Monad Recipe where
  pure := .pure
  bind := .bind

/-- The production that is put together by the recipe. -/
def run (ρ : Reading) {α : Type} : Recipe α → Production α
  | pure a => Pure.pure a
  | bind x f => x.run ρ >>= fun a => (f a).run ρ
  | acceptWhere fits => Grammar.acceptWhere fits
  | look view _ => .read view
  | report token fault => Grammar.report token fault
  | fail fault => failHere fault
  | number name => freshRef name
  | withLoops depth x => Grammar.withLoops depth (x.run ρ)
  | recover x => .recover (some <$> x.run ρ) resume
  | rule r => ρ r

/-! ## Recipes of the small productions -/

def accept (kind : TokenKind) : Recipe (Option Token) := acceptWhere fun k => decide (k = kind)

def acceptMark (marks : List Mark) : Recipe (Option Token) :=
  acceptWhere fun
    | .mark m => marks.contains m
    | _ => false

def sees (kind : TokenKind) : Recipe Bool := look (·.sees kind) fun _ _ => rfl

def atEnd : Recipe Bool := look Cursor.atEnd fun _ _ => rfl

def require (kind : TokenKind) (fault : SyntacticFault) : Recipe Token := do
  match ← accept kind with
  | some token => pure token
  | none => fail fault

def expect (place : Place) : Recipe Token := require (.mark place.mark) (.missing place)

def expectName (role : NameRole) : Recipe Token := require .identifier (.noName role)

def unlessSees (kind : TokenKind) (default : α) (x : Recipe α) : Recipe α := do
  if ← sees kind then pure default else x

def behind (kind : TokenKind) (x : Recipe α) : Recipe (Option α) := do
  match ← accept kind with
  | some _ => some <$> x
  | none => pure none

def assignment? (target value : Expr) : Option (Recipe Expr) :=
  match target with
  | .variable ref => some do return .assign (← number ref.name) value
  | .get object name => some (pure (.set object name value))
  | _ => none

def assignmentTo (target : Expr) (right : Recipe Expr) : Recipe Expr := do
  match ← accept (.mark .equal) with
  | none => pure target
  | some equals =>
    let value ← right
    match assignment? target value with
    | some assign => assign
    | none =>
      report equals .invalidTarget
      pure target

def choiceBy (condition : Expr) (branch : Recipe Expr) : Recipe Expr := do
  match ← accept (.mark .question) with
  | none => pure condition
  | some _ =>
    let thenBranch ← branch
    let _ ← expect .branches
    let elseBranch ← branch
    pure (.ternary condition thenBranch elseBranch)

def checkBlock (owner : BlockOwner) : Recipe Unit := do
  if ← sees (.mark .leftBrace) then
    pure ()
  else
    report (← look Cursor.current fun _ _ => rfl) (.noBlock owner)

def loopInitializer (varDecl : Recipe Stmt) (value : Recipe Expr) : Recipe (Option Stmt) := do
  match ← accept (.mark .semicolon) with
  | some _ => pure none
  | none =>
    match ← accept (.keyword .varKw) with
    | some _ => some <$> varDecl
    | none =>
      let first ← value
      let _ ← expect .initializerEnd
      pure (some (.expression first))

def routineName (kind : Routine) : Recipe (Option Token) :=
  if kind = .lambda then pure none else some <$> expectName (.ofRoutine kind)

def superclassClause : Recipe (Option Ref) := behind (.mark .less) (expectName .ofSuperclass >>= number)

def breakStatement (keyword : Token) : Recipe Stmt := do
  if (← look Cursor.loopDepth fun _ _ => rfl) = 0 then
    report keyword .strayBreak
  let _ ← expect .breakEnd
  pure (.breakLoop keyword)

section Run

variable (ρ : Reading)

/-- A sequence runs as a sequence. -/
theorem run_bind (x : Recipe α) (f : α → Recipe β) :
    (x >>= f).run ρ = x.run ρ >>= fun a => (f a).run ρ := rfl

theorem run_ite (b : Bool) (x y : Recipe α) :
    (if b then x else y).run ρ = if b then x.run ρ else y.run ρ := by
  cases b <;> rfl

/-- What is made of a result is made of it in a run. -/
theorem run_map (f : α → β) (x : Recipe α) : (f <$> x).run ρ = f <$> x.run ρ := rfl

/-- The recipe of a choice by the token at the front is the choice of recipes. -/
theorem run_accept {fits : TokenKind → Bool} {f : Option Token → Recipe α}
    {g : Option Token → Production α} (hsome : ∀ t, (f (some t)).run ρ = g (some t))
    (hnone : (f none).run ρ = g none) : (acceptWhere fits >>= f).run ρ = Grammar.acceptWhere fits >>= g := by
  refine bind_congr fun t => ?_
  cases t with
  | some t => exact hsome t
  | none => exact hnone

/-- A token that has to be there. -/
theorem run_require (kind : TokenKind) (fault : SyntacticFault) :
    (require kind fault).run ρ = Grammar.require kind fault :=
  run_accept ρ (fun _ => rfl) rfl

theorem run_expect (place : Place) : (expect place).run ρ = Grammar.expect place := run_require ρ _ _

theorem run_expectName (role : NameRole) : (expectName role).run ρ = Grammar.expectName role :=
  run_require ρ _ _

/-- A part that may be left out. -/
theorem run_unlessSees (kind : TokenKind) (default : α) (x : Recipe α) :
    (unlessSees kind default x).run ρ = Grammar.unlessSees kind default (x.run ρ) :=
  bind_congr fun seen => by cases seen <;> rfl

/-- A part behind a mark, if the mark is there. -/
theorem run_behind (kind : TokenKind) (x : Recipe α) :
    (behind kind x).run ρ = Grammar.behind kind (x.run ρ) :=
  run_accept ρ (fun _ => rfl) rfl

/-- An assignment, if there is an equals sign behind the target. -/
theorem run_assignmentTo (target : Expr) (right : Recipe Expr) :
    (assignmentTo target right).run ρ = Grammar.assignmentTo target (right.run ρ) := by
  refine run_accept ρ (fun equals => ?_) rfl
  refine bind_congr fun value => ?_
  cases target <;> rfl

/-- A choice, if there is a question mark behind the condition. -/
theorem run_choiceBy (condition : Expr) (branch : Recipe Expr) :
    (choiceBy condition branch).run ρ = Grammar.choiceBy condition (branch.run ρ) := by
  refine run_accept ρ (fun question => ?_) rfl
  simp only [run_bind, run_expect]
  rfl

theorem run_checkBlock (owner : BlockOwner) : (checkBlock owner).run ρ = Grammar.checkBlock owner :=
  bind_congr fun seen => by cases seen <;> rfl

/-- The first clause of a counting loop. -/
theorem run_loopInitializer (varDecl : Recipe Stmt) (value : Recipe Expr) :
    (loopInitializer varDecl value).run ρ = Grammar.loopInitializer (varDecl.run ρ) (value.run ρ) := by
  refine run_accept ρ (fun stop => rfl) (run_accept ρ (fun keyword => rfl) ?_)
  simp only [run_bind, run_expect]
  rfl

theorem run_routineName (kind : Routine) : (routineName kind).run ρ = Grammar.routineName kind := by
  rw [routineName, Grammar.routineName]
  split
  · rfl
  · rw [run_map, run_expectName]

theorem run_superclassClause : superclassClause.run ρ = Grammar.superclassClause := by
  rw [superclassClause, run_behind, run_bind, run_expectName]
  rfl

/-- A `break`, checked against the number of loops. -/
theorem run_breakStatement (keyword : Token) :
    (breakStatement keyword).run ρ = Grammar.breakStatement keyword := by
  have close : (expect .breakEnd >>= fun _ => pure (Stmt.breakLoop keyword)).run ρ =
      Grammar.expect .breakEnd >>= fun _ => Pure.pure (.breakLoop keyword) := by
    rw [run_bind, run_expect]
    rfl
  refine bind_congr fun depth => ?_
  cases depth with
  | zero => exact bind_congr fun _ => close
  | succ depth => exact close

end Run

/-! ## Recipes of the rules

  The rules once more, as recipes; that these come to the same is checked by `run_ofRule`. -/

/-- The recipe of a rule. -/
def ofRule : (r : Rule) → Recipe r.Tree
  | .expression => do
    let target ← rule .ternary
    assignmentTo target (rule .expression)
  | .ternary => do
    let condition ← rule (.operators levels)
    choiceBy condition (rule .ternary)
  | .operators [] => rule .unary
  | .operators (level :: tighter) => do
    let left ← rule (.operators tighter)
    rule (.moreOperators level tighter left)
  | .moreOperators level tighter left => do
    match ← acceptWhere level.holds with
    | none => pure left
    | some operator =>
      let right ← rule (.operators tighter)
      rule (.moreOperators level tighter (level.build left operator right))
  | .unary => do
    match ← acceptMark [.bang, .minus] with
    | some operator => return .unary operator (← rule .unary)
    | none =>
      match ← accept (.keyword .funcKw) with
      | some keyword => return .lambda (← rule (.routine .lambda keyword))
      | none =>
        let callee ← rule .primary
        rule (.calls callee)
  | .calls callee => do
    match ← accept (.mark .leftParen) with
    | some _ =>
      let given ← unlessSees (.mark .rightParen) [] (rule .arguments)
      let paren ← expect .argumentsEnd
      rule (.calls (.call callee paren given))
    | none =>
      match ← accept (.mark .dot) with
      | some _ =>
        let name ← expectName .ofProperty
        rule (.calls (.get callee name))
      | none => pure callee
  | .arguments => do
    let first ← rule .expression
    match ← accept (.mark .comma) with
    | some _ => return first :: (← rule .arguments)
    | none => return [first]
  | .primary => do
    match ← acceptWhere fun k => (constant? k).isSome with
    | some token => return .literal ((constant? token.kind).getD .nil)
    | none =>
      match ← accept .identifier with
      | some name => return .variable (← number name)
      | none =>
        match ← accept (.mark .leftParen) with
        | some _ =>
          let inner ← rule .expression
          let _ ← expect .groupingEnd
          pure (.grouping inner)
        | none =>
          match ← accept (.keyword .thisKw) with
          | some keyword => return .this (← number keyword)
          | none =>
            match ← accept (.keyword .superKw) with
            | some keyword =>
              let _ ← expect .superProperty
              let method ← expectName .ofSuperMethod
              return .super (← number keyword) method
            | none => fail .noExpression
  | .parameters => do
    let first ← expectName .ofParameter
    match ← accept (.mark .comma) with
    | some _ => return first :: (← rule .parameters)
    | none => return [first]
  | .routine kind keyword => do
    let name ← routineName kind
    let _ ← expect (.parametersStart kind)
    let params ← unlessSees (.mark .rightParen) [] (rule .parameters)
    let _ ← expect .parametersEnd
    let _ ← expect (.bodyStart kind)
    let body ← withLoops (fun _ => 0) (rule .block)
    pure (.mk name keyword params body)
  | .methods => do
    if (← sees (.mark .rightBrace)) || (← atEnd) then
      pure []
    else
      let keyword ← require (.keyword .funcKw) .noMethod
      let first ← rule (.routine .method keyword)
      return first :: (← rule .methods)
  | .declaration => recover (rule .phrase)
  | .phrase => do
    match ← accept (.keyword .classKw) with
    | some _ => rule .classDeclaration
    | none =>
      match ← accept (.keyword .funcKw) with
      | some keyword => return .funcDecl (← rule (.routine .function keyword))
      | none =>
        match ← accept (.keyword .varKw) with
        | some _ => rule .varDeclaration
        | none => rule .statement
  | .classDeclaration => do
    let name ← expectName .ofClass
    let superclass ← superclassClause
    let _ ← expect .classStart
    let body ← rule .methods
    let _ ← expect .classEnd
    pure (.classDecl name superclass body)
  | .varDeclaration => do
    let name ← expectName .ofVariable
    let initializer ← behind (.mark .equal) (rule .expression)
    let _ ← expect .variableEnd
    pure (.varDecl name initializer)
  | .statement => do
    match ← acceptWhere startsStatement with
    | none => rule .expressionStatement
    | some token =>
      match token.kind with
      | .keyword .forKw => withLoops (· + 1) (rule .forStatement)
      | .keyword .whileKw => withLoops (· + 1) (rule .whileStatement)
      | .keyword .ifKw => rule .ifStatement
      | .keyword .returnKw => rule (.returnStatement token)
      | .keyword .breakKw => breakStatement token
      | _ => return .block (← rule .block)
  | .forStatement => do
    let initializer ← loopInitializer (rule .varDeclaration) (rule .expression)
    let condition ← unlessSees (.mark .semicolon) none (some <$> rule .expression)
    let _ ← expect .conditionEnd
    let increment ← unlessSees (.mark .leftBrace) none (some <$> rule .expression)
    checkBlock .forLoop
    let body ← rule .statement
    pure (countingLoop initializer condition increment body)
  | .whileStatement => do
    let condition ← rule .expression
    checkBlock .whileLoop
    let body ← rule .statement
    pure (.whileLoop condition body)
  | .ifStatement => do
    let condition ← rule .expression
    checkBlock .ifBranch
    let thenBranch ← rule .statement
    match ← accept (.keyword .elseKw) with
    | none => pure (.ifElse condition thenBranch none)
    | some _ =>
      unless ← sees (.keyword .ifKw) do
        checkBlock .elseBranch
      let elseBranch ← rule .statement
      pure (.ifElse condition thenBranch (some elseBranch))
  | .returnStatement keyword => do
    let value ← unlessSees (.mark .semicolon) none (some <$> rule .expression)
    let _ ← expect .returnEnd
    pure (.returnValue keyword value)
  | .block => do
    let body ← rule (.declarations true)
    let _ ← expect .blockEnd
    pure body
  | .declarations inBlock => do
    if (← atEnd) || (inBlock && (← sees (.mark .rightBrace))) then
      pure []
    else
      let first ← rule .declaration
      let rest ← rule (.declarations inBlock)
      pure (first.toList ++ rest)
  | .expressionStatement => do
    let value ← rule .expression
    if (← look Cursor.interactive fun _ _ => rfl) && (← atEnd) then
      pure (.value value)
    else
      let _ ← expect .expressionEnd
      pure (.expression value)

/-- Running the recipe of a rule, with some fuel for the rules that it calls, is reading by the rule. -/
theorem run_ofRule (r : Rule) (fuel : Nat) :
    (ofRule r).run (fun q => q.read fuel) = r.read (fuel + 1) := by
  -- Rule by rule. Where a recipe is written as its production is they are the same by definition; where a
  -- small production is used its own equation is needed first.
  cases r with
  | expression => exact bind_congr fun target => run_assignmentTo _ target _
  | ternary => exact bind_congr fun condition => run_choiceBy _ condition _
  | operators levels => cases levels <;> rfl
  | moreOperators level tighter left => exact run_accept _ (fun t => rfl) rfl
  | unary => exact run_accept _ (fun t => rfl) (run_accept _ (fun t => rfl) rfl)
  | calls callee =>
    refine run_accept _ (fun left => ?_) (run_accept _ (fun dot => ?_) rfl)
    · simp only [run_bind, run_unlessSees, run_expect]
      rfl
    · simp only [run_bind, run_expectName]
      rfl
  | arguments => exact bind_congr fun first => run_accept _ (fun comma => rfl) rfl
  | primary =>
    refine run_accept _ (fun t => rfl) (run_accept _ (fun name => rfl) ?_)
    refine run_accept _ (fun left => ?_) (run_accept _ (fun this => rfl) ?_)
    · simp only [run_bind, run_expect]
      rfl
    · refine run_accept _ (fun super => ?_) rfl
      simp only [run_bind, run_expect, run_expectName]
      rfl
  | parameters =>
    rw [ofRule, run_bind, run_expectName]
    exact bind_congr fun first => run_accept _ (fun comma => rfl) rfl
  | routine kind keyword =>
    simp only [ofRule, run_bind, run_expect, run_unlessSees, run_routineName]
    rfl
  | methods =>
    refine bind_congr fun atBrace => bind_congr fun ended => ?_
    rw [run_ite, run_bind, run_require]
    rfl
  | declaration => rfl
  | phrase =>
    exact run_accept _ (fun t => rfl) (run_accept _ (fun t => rfl) (run_accept _ (fun t => rfl) rfl))
  | classDeclaration =>
    simp only [ofRule, run_bind, run_expect, run_expectName, run_superclassClause]
    rfl
  | varDeclaration =>
    simp only [ofRule, run_bind, run_expect, run_expectName, run_behind]
    rfl
  | statement =>
    refine run_accept _ (fun token => ?_) rfl
    obtain ⟨kind, lexeme, line⟩ := token
    cases kind with
    | keyword k => cases k with
      | breakKw => exact run_breakStatement _ _
      | _ => rfl
    | _ => rfl
  | forStatement =>
    simp only [ofRule, run_bind, run_expect, run_unlessSees, run_loopInitializer, run_checkBlock,
      run_map]
    rfl
  | whileStatement =>
    simp only [ofRule, run_bind, run_checkBlock]
    rfl
  | ifStatement =>
    refine bind_congr fun condition => ?_
    rw [run_bind, run_checkBlock]
    refine bind_congr fun _ => bind_congr fun thenBranch => ?_
    refine run_accept _ (fun otherwise => ?_) rfl
    refine bind_congr fun isIf => ?_
    cases isIf with
    | true => rfl
    | false =>
      show (checkBlock .elseBranch).run _ >>= _ = _
      rw [run_checkBlock]
      rfl
  | returnStatement keyword =>
    simp only [ofRule, run_bind, run_expect, run_unlessSees, run_map]
    rfl
  | block =>
    simp only [ofRule, run_bind, run_expect]
    rfl
  | declarations inBlock =>
    refine bind_congr fun ended => bind_congr fun atBrace => ?_
    exact run_ite _ _ _ _
  | expressionStatement =>
    refine bind_congr fun value => bind_congr fun interactive => bind_congr fun ended => ?_
    rw [run_ite, run_bind, run_expect]
    rfl

end Recipe

/-- **Reading by a rule is running its recipe**, with less fuel for the rules that it calls. -/
theorem Rule.read_succ (r : Rule) (fuel : Nat) :
    r.read (fuel + 1) = (Recipe.ofRule r).run fun q => q.read fuel :=
  (Recipe.run_ofRule r fuel).symm

end Lox.Grammar
