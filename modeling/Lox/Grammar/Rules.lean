import Lox.Grammar.Cursor

/-!
  The grammar, rule by rule.

  Every rule of the grammar is a production that reads one phrase and builds its tree:

      declaration := class | func routine | var | statement
      statement   := for | while | if | return | break | block | expression ';'
      expression  := target '=' expression | ternary
      ternary     := operators ('?' ternary ':' ternary)?
      operators   := or, and, == !=, < > <= >=, + -, * / %    loosest first, left to right
      unary       := ('!' | '-') unary | lambda | call
      call        := primary ('(' arguments ')' | '.' name)*

  The binary operators are read by one rule from a table of levels.  What is wrong but does not
  confuse the reading (an assignment to something else, a `break` outside of loops, a body that is no
  block) is only reported.  Anything else fails up to the nearest declaration, which reports it and
  goes on at the next boundary.

  Each rule calls others with less fuel; the number of tokens bounds what is needed.
-/

namespace Lox.Grammar

/-- A level of binary operators. -/
structure Level where
  /-- The kinds of tokens that are operators of the level. -/
  holds : TokenKind → Bool
  /-- The tree of an operator and its sides. -/
  build : Expr → Token → Expr → Expr

/-- The levels of binary operators, loosest first. -/
def levels : List Level :=
  [⟨fun k => decide (k = .keyword .orKw), .logical⟩,
    ⟨fun k => decide (k = .keyword .andKw), .logical⟩,
    marks [.bangEqual, .equalEqual],
    marks [.greater, .greaterEqual, .less, .lessEqual],
    marks [.minus, .plus],
    marks [.star, .slash, .percent]]
where
  /-- A level whose operators are marks. -/
  marks (ms : List Mark) : Level :=
    ⟨fun | .mark m => ms.contains m | _ => false, .binary⟩

/-- The tree of an assignment, if its left side can be assigned to. -/
def assignment? (target value : Expr) : Option (Production Expr) :=
  match target with
  | .variable ref => some do return .assign (← freshRef ref.name) value
  | .get object name => some (pure (.set object name value))
  | _ => none

/-- The assignment to a left side if an equals sign follows it, else the left side alone. -/
def assignmentTo (target : Expr) (right : Production Expr) : Production Expr := do
  match ← accept (.mark .equal) with
  | none => pure target
  | some equals =>
    let value ← right
    match assignment? target value with
    | some assign => assign
    | none =>
      report equals .invalidTarget
      pure target

/-- The conditional expression if a question mark follows its condition, else the condition alone. -/
def choiceBy (condition : Expr) (branch : Production Expr) : Production Expr := do
  match ← accept (.mark .question) with
  | none => pure condition
  | some _ =>
    let thenBranch ← branch
    let _ ← expect .branches
    let elseBranch ← branch
    pure (.ternary condition thenBranch elseBranch)

/-- The constant that a token is, if it is one. -/
def constant? : TokenKind → Option Literal
  | .keyword .falseKw => some (.bool false)
  | .keyword .trueKw => some (.bool true)
  | .keyword .nilKw => some .nil
  | .number x => some (.number x)
  | .string s => some (.string s)
  | _ => none

/-- Reports it if the body that follows is no block. -/
def checkBlock (owner : BlockOwner) : Production Unit := do
  unless ← sees (.mark .leftBrace) do
    report (← .read Cursor.current) (.noBlock owner)

/-- The parameters of a function, at least one. -/
def parameters : Nat → Production (List Token)
  | 0 => .outOfFuel
  | fuel + 1 => do
    let first ← expectName .ofParameter
    match ← accept (.mark .comma) with
    | some _ => return first :: (← parameters fuel)
    | none => return [first]

/-- A counting loop, written with a `while` loop: the increment comes after the body, in a block of
    its own around it, and the initializer in a block around everything. -/
def countingLoop (initializer : Option Stmt) (condition increment : Option Expr) (body : Stmt) :
    Stmt :=
  let round := increment.elim body fun e => .block [body, .expression e]
  let loop := .whileLoop (condition.getD (.literal (.bool true))) round
  initializer.elim loop fun first => .block [first, loop]

/-- The initializer of a counting loop: nothing, a variable or an expression, and its semicolon. -/
def loopInitializer (varDecl : Production Stmt) (value : Production Expr) :
    Production (Option Stmt) := do
  match ← accept (.mark .semicolon) with
  | some _ => pure none
  | none =>
    match ← accept (.keyword .varKw) with
    | some _ => some <$> varDecl
    | none =>
      let first ← value
      let _ ← expect .initializerEnd
      pure (some (.expression first))

/-- The name of a function or a method; a lambda has none. -/
def routineName (kind : Routine) : Production (Option Token) :=
  if kind = .lambda then pure none else some <$> expectName (.ofRoutine kind)

/-- The class that a class extends, if there is one. -/
def superclassClause : Production (Option Ref) :=
  behind (.mark .less) (expectName .ofSuperclass >>= freshRef)

/-- The rest of a `break` statement. -/
def breakStatement (keyword : Token) : Production Stmt := do
  if (← .read Cursor.loopDepth) = 0 then
    report keyword .strayBreak
  let _ ← expect .breakEnd
  pure (.breakLoop keyword)

/-- Whether a token begins a statement that is no expression. -/
def startsStatement : TokenKind → Bool
  | .keyword k => [Keyword.forKw, .whileKw, .ifKw, .returnKw, .breakKw].contains k
  | .mark m => decide (m = .leftBrace)
  | _ => false

/-! ## The rules -/

mutual

-- Expressions

/-- An assignment or anything tighter. -/
def expression : Nat → Production Expr
  | 0 => .outOfFuel
  | fuel + 1 => do
    let target ← ternary fuel
    assignmentTo target (expression fuel)

/-- A conditional expression or anything tighter. -/
def ternary : Nat → Production Expr
  | 0 => .outOfFuel
  | fuel + 1 => do
    let condition ← operators fuel levels
    choiceBy condition (ternary fuel)

/-- An expression with operators of the given levels. -/
def operators : Nat → List Level → Production Expr
  | 0, _ => .outOfFuel
  | fuel + 1, [] => unary fuel
  | fuel + 1, level :: tighter => do
    let left ← operators fuel tighter
    moreOperators fuel level tighter left

/-- The operators of a level that follow a left side. -/
def moreOperators : Nat → Level → List Level → Expr → Production Expr
  | 0, _, _, _ => .outOfFuel
  | fuel + 1, level, tighter, left => do
    match ← acceptWhere level.holds with
    | none => pure left
    | some operator =>
      let right ← operators fuel tighter
      moreOperators fuel level tighter (level.build left operator right)

/-- A unary operator, a lambda or a call. -/
def unary : Nat → Production Expr
  | 0 => .outOfFuel
  | fuel + 1 => do
    match ← acceptMark [.bang, .minus] with
    | some operator => return .unary operator (← unary fuel)
    | none =>
      match ← accept (.keyword .funcKw) with
      | some keyword => return .lambda (← routine fuel .lambda keyword)
      | none =>
        let callee ← primary fuel
        calls fuel callee

/-- The calls and properties that follow an expression. -/
def calls : Nat → Expr → Production Expr
  | 0, _ => .outOfFuel
  | fuel + 1, callee => do
    match ← accept (.mark .leftParen) with
    | some _ =>
      let given ← unlessSees (.mark .rightParen) [] (arguments fuel)
      let paren ← expect .argumentsEnd
      calls fuel (.call callee paren given)
    | none =>
      match ← accept (.mark .dot) with
      | some _ =>
        let name ← expectName .ofProperty
        calls fuel (.get callee name)
      | none => pure callee

/-- The arguments of a call, at least one. -/
def arguments : Nat → Production (List Expr)
  | 0 => .outOfFuel
  | fuel + 1 => do
    let first ← expression fuel
    match ← accept (.mark .comma) with
    | some _ => return first :: (← arguments fuel)
    | none => return [first]

/-- A constant, a name or an expression in parentheses. -/
def primary : Nat → Production Expr
  | 0 => .outOfFuel
  | fuel + 1 => do
    match ← acceptWhere fun k => (constant? k).isSome with
    | some token => return .literal ((constant? token.kind).getD .nil)
    | none =>
      match ← accept .identifier with
      | some name => return .variable (← freshRef name)
      | none =>
        match ← accept (.mark .leftParen) with
        | some _ =>
          let inner ← expression fuel
          let _ ← expect .groupingEnd
          pure (.grouping inner)
        | none =>
          match ← accept (.keyword .thisKw) with
          | some keyword => return .this (← freshRef keyword)
          | none =>
            match ← accept (.keyword .superKw) with
            | some keyword =>
              let _ ← expect .superProperty
              let method ← expectName .ofSuperMethod
              return .super (← freshRef keyword) method
            | none => failHere .noExpression

-- Functions

/-- The name (but for a lambda), the parameters and the body of a function, behind its keyword. -/
def routine : Nat → Routine → Token → Production FunctionDecl
  | 0, _, _ => .outOfFuel
  | fuel + 1, kind, keyword => do
    let name ← routineName kind
    let _ ← expect (.parametersStart kind)
    let params ← unlessSees (.mark .rightParen) [] (parameters fuel)
    let _ ← expect .parametersEnd
    let _ ← expect (.bodyStart kind)
    let body ← withLoops (fun _ => 0) (block fuel)
    pure (.mk name keyword params body)

/-- The methods of a class, up to the end of its body. -/
def methods : Nat → Production (List FunctionDecl)
  | 0 => .outOfFuel
  | fuel + 1 => do
    if (← sees (.mark .rightBrace)) || (← atEnd) then
      pure []
    else
      let keyword ← require (.keyword .funcKw) .noMethod
      let first ← routine fuel .method keyword
      return first :: (← methods fuel)

-- Declarations

/-- A declaration; none where it failed, which has then been reported. -/
def declaration : Nat → Production (Option Stmt)
  | 0 => .outOfFuel
  | fuel + 1 => .recover (some <$> phrase fuel) resume

/-- A declaration or a statement. -/
def phrase : Nat → Production Stmt
  | 0 => .outOfFuel
  | fuel + 1 => do
    match ← accept (.keyword .classKw) with
    | some _ => classDeclaration fuel
    | none =>
      match ← accept (.keyword .funcKw) with
      | some keyword => return .funcDecl (← routine fuel .function keyword)
      | none =>
        match ← accept (.keyword .varKw) with
        | some _ => varDeclaration fuel
        | none => statement fuel

/-- The name, the superclass and the methods of a class, behind its keyword. -/
def classDeclaration : Nat → Production Stmt
  | 0 => .outOfFuel
  | fuel + 1 => do
    let name ← expectName .ofClass
    let superclass ← superclassClause
    let _ ← expect .classStart
    let body ← methods fuel
    let _ ← expect .classEnd
    pure (.classDecl name superclass body)

/-- The name and the initializer of a variable, behind its keyword. -/
def varDeclaration : Nat → Production Stmt
  | 0 => .outOfFuel
  | fuel + 1 => do
    let name ← expectName .ofVariable
    let initializer ← behind (.mark .equal) (expression fuel)
    let _ ← expect .variableEnd
    pure (.varDecl name initializer)

-- Statements

/-- A statement. -/
def statement : Nat → Production Stmt
  | 0 => .outOfFuel
  | fuel + 1 => do
    match ← acceptWhere startsStatement with
    | none => expressionStatement fuel
    | some token =>
      match token.kind with
      | .keyword .forKw => withLoops (· + 1) (forStatement fuel)
      | .keyword .whileKw => withLoops (· + 1) (whileStatement fuel)
      | .keyword .ifKw => ifStatement fuel
      | .keyword .returnKw => returnStatement fuel token
      | .keyword .breakKw => breakStatement token
      | _ => return .block (← block fuel)

/-- The rest of a counting loop. -/
def forStatement : Nat → Production Stmt
  | 0 => .outOfFuel
  | fuel + 1 => do
    let initializer ← loopInitializer (varDeclaration fuel) (expression fuel)
    let condition ← unlessSees (.mark .semicolon) none (some <$> expression fuel)
    let _ ← expect .conditionEnd
    let increment ← unlessSees (.mark .leftBrace) none (some <$> expression fuel)
    checkBlock .forLoop
    let body ← statement fuel
    pure (countingLoop initializer condition increment body)

/-- The rest of a `while` loop. -/
def whileStatement : Nat → Production Stmt
  | 0 => .outOfFuel
  | fuel + 1 => do
    let condition ← expression fuel
    checkBlock .whileLoop
    let body ← statement fuel
    pure (.whileLoop condition body)

/-- The rest of an `if` statement. -/
def ifStatement : Nat → Production Stmt
  | 0 => .outOfFuel
  | fuel + 1 => do
    let condition ← expression fuel
    checkBlock .ifBranch
    let thenBranch ← statement fuel
    match ← accept (.keyword .elseKw) with
    | none => pure (.ifElse condition thenBranch none)
    | some _ =>
      unless ← sees (.keyword .ifKw) do
        checkBlock .elseBranch
      let elseBranch ← statement fuel
      pure (.ifElse condition thenBranch (some elseBranch))

/-- The rest of a `return` statement. -/
def returnStatement : Nat → Token → Production Stmt
  | 0, _ => .outOfFuel
  | fuel + 1, keyword => do
    let value ← unlessSees (.mark .semicolon) none (some <$> expression fuel)
    let _ ← expect .returnEnd
    pure (.returnValue keyword value)

/-- The statements of a block and its end, behind its start. -/
def block : Nat → Production (List Stmt)
  | 0 => .outOfFuel
  | fuel + 1 => do
    let body ← declarations fuel true
    let _ ← expect .blockEnd
    pure body

/-- Declarations up to the end of the program, or of the block if they stand in one. -/
def declarations : Nat → Bool → Production (List Stmt)
  | 0, _ => .outOfFuel
  | fuel + 1, inBlock => do
    if (← atEnd) || (inBlock && (← sees (.mark .rightBrace))) then
      pure []
    else
      let first ← declaration fuel
      let rest ← declarations fuel inBlock
      pure (first.toList ++ rest)

/-- An expression and its semicolon, which the last one of an interactive program may lack. -/
def expressionStatement : Nat → Production Stmt
  | 0 => .outOfFuel
  | fuel + 1 => do
    let value ← expression fuel
    if (← .read Cursor.interactive) && (← atEnd) then
      pure (.value value)
    else
      let _ ← expect .expressionEnd
      pure (.expression value)

end

end Lox.Grammar
