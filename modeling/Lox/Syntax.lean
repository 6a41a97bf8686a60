import Lox.Token

/-!
  Programs as trees.

  A program is a list of statements.  Every occurrence of a name that has to be matched with a declaration is
  a `Ref`: it carries a number of its own, under which the distance to the declaration is recorded.  So a tree
  is never changed after it has been read, and two occurrences of a name are different even on one line.

  There is no tree for a counting loop; it is written with a `while` loop and blocks.  There is one more
  statement than is written, for an expression whose value an interactive session shows.

  A function declaration stands for functions, methods and lambdas; a lambda has no name.  What a function is
  called when it is printed, and whether it is an initializer, are both read off the name.
-/

namespace Lox

/-- A constant. -/
inductive Literal where
  | nil
  | bool (value : Bool)
  | number (value : Float)
  | string (value : String)
  deriving DecidableEq

/-- An occurrence of a name. -/
structure Ref where
  /-- The number of the occurrence. -/
  id : Nat
  /-- The token that names. -/
  name : Token
  deriving DecidableEq

mutual

/-- Expressions. -/
inductive Expr where
  | literal (value : Literal)
  | grouping (inner : Expr)
  | unary (operator : Token) (right : Expr)
  | binary (left : Expr) (operator : Token) (right : Expr)
  /-- The operators that may leave their right side alone. -/
  | logical (left : Expr) (operator : Token) (right : Expr)
  | ternary (condition thenBranch elseBranch : Expr)
  | variable (ref : Ref)
  | assign (ref : Ref) (value : Expr)
  /-- A call, with the parenthesis that closes it. -/
  | call (callee : Expr) (paren : Token) (arguments : List Expr)
  | get (object : Expr) (name : Token)
  | set (object : Expr) (name : Token) (value : Expr)
  | lambda (declaration : FunctionDecl)
  | this (ref : Ref)
  | super (ref : Ref) (method : Token)

/-- Statements. -/
inductive Stmt where
  | expression (value : Expr)
  /-- The last expression of a submission, whose value is handed back. -/
  | value (value : Expr)
  | varDecl (name : Token) (initializer : Option Expr)
  | block (body : List Stmt)
  | ifElse (condition : Expr) (thenBranch : Stmt) (elseBranch : Option Stmt)
  | whileLoop (condition : Expr) (body : Stmt)
  | breakLoop (keyword : Token)
  | funcDecl (declaration : FunctionDecl)
  | classDecl (name : Token) (superclass : Option Ref) (methods : List FunctionDecl)
  | returnValue (keyword : Token) (value : Option Expr)

/-- Functions, methods and lambdas. -/
inductive FunctionDecl where
  /-- A lambda has no name.  The keyword is the token that begins the declaration. -/
  | mk (name : Option Token) (keyword : Token) (params : List Token) (body : List Stmt)

end

namespace FunctionDecl

/-- The name, which a lambda has none of. -/
def name : FunctionDecl → Option Token
  | mk name _ _ _ => name

/-- The token that begins the declaration. -/
def keyword : FunctionDecl → Token
  | mk _ keyword _ _ => keyword

/-- The parameters. -/
def params : FunctionDecl → List Token
  | mk _ _ params _ => params

/-- The statements of the body. -/
def body : FunctionDecl → List Stmt
  | mk _ _ _ body => body

/-- The name that is shown. -/
def displayName (d : FunctionDecl) : String := d.name.elim "lambda" Token.lexeme

/-- Whether the declaration, as a method, makes a new instance ready. -/
def isInitializer (d : FunctionDecl) : Bool := d.displayName == "init"

end FunctionDecl

end Lox
