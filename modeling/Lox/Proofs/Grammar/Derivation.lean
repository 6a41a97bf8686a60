import Lox.Fault
import Lox.Syntax

/-!
  The grammar of programs, as derivations.

      program     → declaration*
      declaration → class | function | variable | statement            a `func` begins a function
      class       → "class" NAME ("<" NAME)? "{" ("func" routine)* "}"
      routine     → NAME "(" parameters? ")" block
      variable    → "var" NAME ("=" expression)? ";"
      statement   → for | while | if | return | break | block | expression ";"
      for         → "for" (variable | expression ";" | ";") expression? ";" expression? block
      while       → "while" expression block
      if          → "if" expression block ("else" (block | if))?
      expression  → (call ".")? NAME "=" expression | ternary
      ternary     → or ("?" ternary ":" ternary)?
      or, and, equality, comparison, term, factor                      one tier of operators each
      unary       → ("!" | "-") unary | "func" "(" parameters? ")" block | call
      call        → primary ("(" arguments? ")" | "." NAME)*
      primary     → NUMBER | STRING | "true" | "false" | "nil" | NAME | "this" | "super" "." NAME
                  | "(" expression ")"

  A derivation goes from one stand to another: the tokens that are still to be read, and the number
  that the next occurrence of a name gets.  Each rule is one way to go, and says which tree it makes.
  No rule looks at the tokens behind what it reads, and none knows of the productions that read them.
-/

namespace Lox

/-- The token is the mark. -/
def Token.IsMark (t : Token) (m : Mark) : Prop := t.kind = .mark m

/-- The token is the keyword. -/
def Token.IsKeyword (t : Token) (k : Keyword) : Prop := t.kind = .keyword k

/-- The token is a name. -/
def Token.IsName (t : Token) : Prop := t.kind = .identifier

namespace Grammar

/-! ## Tiers of operators -/

/-- The tiers of binary operators. -/
inductive Tier where
  | disjunction | conjunction | equality | comparison | term | factor
  deriving DecidableEq

namespace Tier

/-- All tiers, loosest first. -/
def all : List Tier := [disjunction, conjunction, equality, comparison, term, factor]

/-- The operators of the tier. -/
def operators : Tier → List TokenKind
  | disjunction => [.keyword .orKw]
  | conjunction => [.keyword .andKw]
  | equality => [.mark .bangEqual, .mark .equalEqual]
  | comparison => [.mark .greater, .mark .greaterEqual, .mark .less, .mark .lessEqual]
  | term => [.mark .minus, .mark .plus]
  | factor => [.mark .slash, .mark .star, .mark .percent]

/-- The tree of an operator of the tier. -/
def tree (t : Tier) (left : Expr) (operator : Token) (right : Expr) : Expr :=
  match t with
  | disjunction | conjunction => .logical left operator right
  | equality | comparison | term | factor => .binary left operator right

end Tier

/-! ## Loops -/

/-- The tree of a body with an increment behind it. -/
def roundTree (body : List Stmt) : Option Expr → Stmt
  | none => .block body
  | some increment => .block [.block body, .expression increment]

/-- The tree of a counting loop, `{ init; while (cond) { { body } incr; } }`: no condition is a
    true one, and without an initializer or an increment there is no block for it. -/
def loopTree (condition increment : Option Expr) (body : List Stmt) : Option Stmt → Stmt
  | none => .whileLoop (condition.getD (.literal (.bool true))) (roundTree body increment)
  | some first => .block
    [first, .whileLoop (condition.getD (.literal (.bool true))) (roundTree body increment)]

/-! ## Derivations

  The grammar as an inductive relation: no fuel, no cursor, no recovery.  Where two rules fit, the order in which
  the parser tries them shows in a premise that excludes the first. -/

/-- What can be derived.  Of a phrase that can hold a `break` it matters whether a loop of the same
    function body is around it. -/
inductive Category where
  | expression | ternary | operators (tiers : List Tier) | unary | call | primary
  /-- An expression that may be left out. -/
  | optional
  | arguments | argumentList
  | parameters | parameterList
  /-- A function from its keyword on. -/
  | routine (kind : Routine)
  | superclass | methods
  | varDecl | initializer
  | conditional (inLoop : Bool) | statement (inLoop : Bool) | block (inLoop : Bool)
  | declaration (inLoop : Bool) | declarations (inLoop : Bool)

/-- What a derivation makes. -/
def Category.Tree : Category → Type
  | expression | ternary | operators _ | unary | call | primary => Expr
  | optional => Option Expr
  | arguments | argumentList => List Expr
  | parameters | parameterList => List Token
  | routine _ => FunctionDecl
  | superclass => Option Ref
  | methods => List FunctionDecl
  | initializer => Option Stmt
  | varDecl | conditional _ | statement _ | declaration _ => Stmt
  | block _ | declarations _ => List Stmt

/-- The tokens that are still to be read, and the number of the next occurrence of a name. -/
abbrev Stand := List Token × Nat

/-- No declaration but that of a function begins with `func`. -/
def Stand.NotFunc (s : Stand) : Prop := ∀ t ∈ s.1.head?, ¬ t.IsKeyword .funcKw

/-- The first stand is turned into the second by reading a phrase of the category. -/
inductive Derives : (c : Category) → Stand → c.Tree → Stand → Prop where
  -- Assignments
  | assignVariable {name equals value ts i s j} :
    name.IsName → equals.IsMark .equal →
    Derives .expression (ts, i + 1) value (s, j) →
    Derives .expression (name :: equals :: ts, i) (.assign ⟨j, name⟩ value) (s, j + 1)
  | assignProperty {s object dot name equals ts i value u} :
    Derives .call s object (dot :: name :: equals :: ts, i) →
    dot.IsMark .dot → name.IsName → equals.IsMark .equal →
    Derives .expression (ts, i) value u →
    Derives .expression s (.set object name value) u
  | ternary {s e u} : Derives .ternary s e u → Derives .expression s e u
  -- Conditional expressions
  | operators {s e u} : Derives (.operators Tier.all) s e u → Derives .ternary s e u
  | choice {s condition question ts i thenBranch colon us j elseBranch u} :
    Derives (.operators Tier.all) s condition (question :: ts, i) →
    question.IsMark .question →
    Derives .ternary (ts, i) thenBranch (colon :: us, j) →
    colon.IsMark .colon →
    Derives .ternary (us, j) elseBranch u →
    Derives .ternary s (.ternary condition thenBranch elseBranch) u
  -- Operators, those of one tier grouped to the left
  | unary {s e u} : Derives .unary s e u → Derives (.operators []) s e u
  | operand {tier tighter s e u} :
    Derives (.operators tighter) s e u → Derives (.operators (tier :: tighter)) s e u
  | operator {tier tighter s left operator ts i right u} :
    Derives (.operators (tier :: tighter)) s left (operator :: ts, i) →
    operator.kind ∈ tier.operators →
    Derives (.operators tighter) (ts, i) right u →
    Derives (.operators (tier :: tighter)) s (tier.tree left operator right) u
  | negated {operator ts i right u} :
    operator.IsMark .bang ∨ operator.IsMark .minus →
    Derives .unary (ts, i) right u →
    Derives .unary (operator :: ts, i) (.unary operator right) u
  | lambda {s d u} : Derives (.routine .lambda) s d u → Derives .unary s (.lambda d) u
  -- Calls and properties, from left to right
  | call {s e u} : Derives .call s e u → Derives .unary s e u
  | primary {s e u} : Derives .primary s e u → Derives .call s e u
  | application {s callee left ts i given right us j} :
    Derives .call s callee (left :: ts, i) →
    left.IsMark .leftParen →
    Derives .arguments (ts, i) given (right :: us, j) →
    right.IsMark .rightParen →
    Derives .call s (.call callee right given) (us, j)
  | property {s object dot name ts i} :
    Derives .call s object (dot :: name :: ts, i) →
    dot.IsMark .dot → name.IsName →
    Derives .call s (.get object name) (ts, i)
  -- Atoms
  | number {t : Token} {x ts i} : t.kind = .number x →
    Derives .primary (t :: ts, i) (.literal (.number x)) (ts, i)
  | string {t : Token} {x ts i} : t.kind = .string x →
    Derives .primary (t :: ts, i) (.literal (.string x)) (ts, i)
  | trueConstant {t : Token} {ts i} : t.IsKeyword .trueKw →
    Derives .primary (t :: ts, i) (.literal (.bool true)) (ts, i)
  | falseConstant {t : Token} {ts i} : t.IsKeyword .falseKw →
    Derives .primary (t :: ts, i) (.literal (.bool false)) (ts, i)
  | nilConstant {t : Token} {ts i} : t.IsKeyword .nilKw →
    Derives .primary (t :: ts, i) (.literal .nil) (ts, i)
  | name {name : Token} {ts i} : name.IsName →
    Derives .primary (name :: ts, i) (.variable ⟨i, name⟩) (ts, i + 1)
  | this {keyword : Token} {ts i} : keyword.IsKeyword .thisKw →
    Derives .primary (keyword :: ts, i) (.this ⟨i, keyword⟩) (ts, i + 1)
  | super {keyword dot method : Token} {ts i} :
    keyword.IsKeyword .superKw → dot.IsMark .dot → method.IsName →
    Derives .primary (keyword :: dot :: method :: ts, i) (.super ⟨i, keyword⟩ method) (ts, i + 1)
  | grouping {left ts i inner right us j} :
    left.IsMark .leftParen →
    Derives .expression (ts, i) inner (right :: us, j) →
    right.IsMark .rightParen →
    Derives .primary (left :: ts, i) (.grouping inner) (us, j)
  -- Lists of expressions and of names
  | omitted {s} : Derives .optional s none s
  | given {s e u} : Derives .expression s e u → Derives .optional s (some e) u
  | noArguments {s} : Derives .arguments s [] s
  | someArguments {s es u} : Derives .argumentList s es u → Derives .arguments s es u
  | lastArgument {s e u} : Derives .expression s e u → Derives .argumentList s [e] u
  | argument {s first comma ts i rest u} :
    Derives .expression s first (comma :: ts, i) →
    comma.IsMark .comma →
    Derives .argumentList (ts, i) rest u →
    Derives .argumentList s (first :: rest) u
  | noParameters {s} : Derives .parameters s [] s
  | someParameters {s names u} : Derives .parameterList s names u → Derives .parameters s names u
  | lastParameter {name : Token} {ts i} : name.IsName →
    Derives .parameterList (name :: ts, i) [name] (ts, i)
  | parameter {name comma : Token} {ts i rest u} :
    name.IsName → comma.IsMark .comma →
    Derives .parameterList (ts, i) rest u →
    Derives .parameterList (name :: comma :: ts, i) (name :: rest) u
  -- Functions; a body is in no loop
  | routine {kind keyword name left ts i params right us j body u} :
    kind ≠ Routine.lambda → keyword.IsKeyword .funcKw → name.IsName →
    left.IsMark .leftParen →
    Derives .parameters (ts, i) params (right :: us, j) →
    right.IsMark .rightParen →
    Derives (.block false) (us, j) body u →
    Derives (.routine kind) (keyword :: name :: left :: ts, i)
      (.mk (some name) keyword params body) u
  | anonymous {keyword left ts i params right us j body u} :
    keyword.IsKeyword .funcKw → left.IsMark .leftParen →
    Derives .parameters (ts, i) params (right :: us, j) →
    right.IsMark .rightParen →
    Derives (.block false) (us, j) body u →
    Derives (.routine .lambda) (keyword :: left :: ts, i) (.mk none keyword params body) u
  -- Declarations
  | noSuperclass {s} : Derives .superclass s none s
  | extending {less name : Token} {ts i} : less.IsMark .less → name.IsName →
    Derives .superclass (less :: name :: ts, i) (some ⟨i, name⟩) (ts, i + 1)
  | noMethods {s} : Derives .methods s [] s
  | method {s first u rest v} :
    Derives (.routine .method) s first u → Derives .methods u rest v →
    Derives .methods s (first :: rest) v
  | classDecl {inLoop keyword name ts i superclass left us j methods right vs k} :
    keyword.IsKeyword .classKw → name.IsName →
    Derives .superclass (ts, i) superclass (left :: us, j) →
    left.IsMark .leftBrace →
    Derives .methods (us, j) methods (right :: vs, k) →
    right.IsMark .rightBrace →
    Derives (.declaration inLoop) (keyword :: name :: ts, i)
      (.classDecl name superclass methods) (vs, k)
  | function {inLoop s d u} : Derives (.routine .function) s d u →
    Derives (.declaration inLoop) s (.funcDecl d) u
  | varDecl {inLoop s d u} : Derives .varDecl s d u → Derives (.declaration inLoop) s d u
  | statement {inLoop s d u} : s.NotFunc → Derives (.statement inLoop) s d u →
    Derives (.declaration inLoop) s d u
  | unset {keyword name stop : Token} {ts i} :
    keyword.IsKeyword .varKw → name.IsName → stop.IsMark .semicolon →
    Derives .varDecl (keyword :: name :: stop :: ts, i) (.varDecl name none) (ts, i)
  | set {keyword name equals ts i value stop us j} :
    keyword.IsKeyword .varKw → name.IsName → equals.IsMark .equal →
    Derives .expression (ts, i) value (stop :: us, j) →
    stop.IsMark .semicolon →
    Derives .varDecl (keyword :: name :: equals :: ts, i) (.varDecl name (some value)) (us, j)
  -- Statements
  | noInitializer {stop : Token} {ts i} : stop.IsMark .semicolon →
    Derives .initializer (stop :: ts, i) none (ts, i)
  | variableInitializer {s d u} : Derives .varDecl s d u → Derives .initializer s (some d) u
  | expressionInitializer {s e stop ts i} :
    Derives .expression s e (stop :: ts, i) → stop.IsMark .semicolon →
    Derives .initializer s (some (.expression e)) (ts, i)
  | forLoop {inLoop keyword ts i initializer u condition stop us j increment v body w} :
    keyword.IsKeyword .forKw →
    Derives .initializer (ts, i) initializer u →
    Derives .optional u condition (stop :: us, j) →
    stop.IsMark .semicolon →
    Derives .optional (us, j) increment v →
    Derives (.block true) v body w →
    Derives (.statement inLoop) (keyword :: ts, i) (loopTree condition increment body initializer) w
  | whileLoop {inLoop keyword ts i condition u body v} :
    keyword.IsKeyword .whileKw →
    Derives .expression (ts, i) condition u →
    Derives (.block true) u body v →
    Derives (.statement inLoop) (keyword :: ts, i) (.whileLoop condition (.block body)) v
  | conditional {inLoop s d u} : Derives (.conditional inLoop) s d u →
    Derives (.statement inLoop) s d u
  | ifOnly {inLoop keyword ts i condition u thenBranch v} :
    keyword.IsKeyword .ifKw →
    Derives .expression (ts, i) condition u →
    Derives (.block inLoop) u thenBranch v →
    Derives (.conditional inLoop) (keyword :: ts, i) (.ifElse condition (.block thenBranch) none) v
  | ifElse {inLoop keyword ts i condition u thenBranch otherwise us j elseBranch v} :
    keyword.IsKeyword .ifKw →
    Derives .expression (ts, i) condition u →
    Derives (.block inLoop) u thenBranch (otherwise :: us, j) →
    otherwise.IsKeyword .elseKw →
    Derives (.block inLoop) (us, j) elseBranch v →
    Derives (.conditional inLoop) (keyword :: ts, i)
      (.ifElse condition (.block thenBranch) (some (.block elseBranch))) v
  | elseIf {inLoop keyword ts i condition u thenBranch otherwise us j elseBranch v} :
    keyword.IsKeyword .ifKw →
    Derives .expression (ts, i) condition u →
    Derives (.block inLoop) u thenBranch (otherwise :: us, j) →
    otherwise.IsKeyword .elseKw →
    Derives (.conditional inLoop) (us, j) elseBranch v →
    Derives (.conditional inLoop) (keyword :: ts, i)
      (.ifElse condition (.block thenBranch) (some elseBranch)) v
  | returnValue {inLoop keyword ts i value stop us j} :
    keyword.IsKeyword .returnKw →
    Derives .optional (ts, i) value (stop :: us, j) →
    stop.IsMark .semicolon →
    Derives (.statement inLoop) (keyword :: ts, i) (.returnValue keyword value) (us, j)
  | breakLoop {keyword stop : Token} {ts i} :
    keyword.IsKeyword .breakKw → stop.IsMark .semicolon →
    Derives (.statement true) (keyword :: stop :: ts, i) (.breakLoop keyword) (ts, i)
  | blockStatement {inLoop s body u} : Derives (.block inLoop) s body u →
    Derives (.statement inLoop) s (.block body) u
  | expressionStatement {inLoop s e stop ts i} :
    Derives .expression s e (stop :: ts, i) → stop.IsMark .semicolon →
    Derives (.statement inLoop) s (.expression e) (ts, i)
  | block {inLoop left ts i body right us j} :
    left.IsMark .leftBrace →
    Derives (.declarations inLoop) (ts, i) body (right :: us, j) →
    right.IsMark .rightBrace →
    Derives (.block inLoop) (left :: ts, i) body (us, j)
  | noDeclarations {inLoop s} : Derives (.declarations inLoop) s [] s
  | declarations {inLoop s first u rest v} :
    Derives (.declaration inLoop) s first u → Derives (.declarations inLoop) u rest v →
    Derives (.declarations inLoop) s (first :: rest) v

end Grammar

end Lox
