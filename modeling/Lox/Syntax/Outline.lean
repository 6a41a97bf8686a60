import Lox.Outline
import Lox.Syntax

/-!
  The outline of a program.

  Every statement and every expression is a node; its label says what it is and holds the names and constants
  that belong to it.  Children stand in the order in which they are written.  A part that is left out has no
  node, with nothing in its place, so that the label and the number of children tell which parts there are.

  Numbers of occurrences and lines are not shown: outlines are about what was written.  A counting loop shows as
  the `while` loop and the blocks that it is read as, with its increment behind the body.
-/

namespace Lox

/-- A constant as it is written, a string without its escapes. -/
def Literal.outlineText : Literal → String
  | nil => "nil"
  | bool b => if b then "true" else "false"
  | number x => Number.text x
  | string s => "\"" ++ s ++ "\""

/-- The name and the parameters of a function; a lambda has no name. -/
def signatureText (name : Option Token) (params : List Token) : String :=
  name.elim "" Token.lexeme ++ "(" ++ ", ".intercalate (params.map Token.lexeme) ++ ")"

/-- The name of a class and of the class it extends. -/
def classLabel (name : Token) (superclass : Option Ref) : String :=
  name.lexeme ++ superclass.elim "" fun ref => " < " ++ ref.name.lexeme

mutual

/-- The outline of an expression. -/
def Expr.outline : Expr → Outline
  | .literal value => .node ("Literal " ++ value.outlineText) []
  | .grouping inner => .node "Grouping" [inner.outline]
  | .unary operator right => .node ("Unary " ++ operator.lexeme) [right.outline]
  | .binary left operator right =>
    .node ("Binary " ++ operator.lexeme) [left.outline, right.outline]
  | .logical left operator right =>
    .node ("Logical " ++ operator.lexeme) [left.outline, right.outline]
  | .ternary condition thenBranch elseBranch =>
    .node "Ternary" [condition.outline, thenBranch.outline, elseBranch.outline]
  | .variable ref => .node ("Variable " ++ ref.name.lexeme) []
  | .assign ref value => .node ("Assign " ++ ref.name.lexeme) [value.outline]
  | .call callee _ arguments => .node "Call" (callee.outline :: Expr.outlines arguments)
  | .get object name => .node ("Get " ++ name.lexeme) [object.outline]
  | .set object name value => .node ("Set " ++ name.lexeme) [object.outline, value.outline]
  | .lambda declaration => declaration.outline "Lambda "
  | .this _ => .node "This" []
  | .super _ method => .node ("Super " ++ method.lexeme) []

/-- The outlines of expressions. -/
def Expr.outlines : List Expr → List Outline
  | [] => []
  | e :: rest => e.outline :: Expr.outlines rest

/-- The outline of an expression that may be left out. -/
def Expr.optionalOutline : Option Expr → List Outline
  | none => []
  | some e => [e.outline]

/-- The outline of a statement. -/
def Stmt.outline : Stmt → Outline
  | .expression value => .node "ExpressionStatement" [value.outline]
  | .value value => .node "Value" [value.outline]
  | .varDecl name initializer => .node ("Var " ++ name.lexeme) (Expr.optionalOutline initializer)
  | .block body => .node "Block" (Stmt.outlines body)
  | .ifElse condition thenBranch elseBranch =>
    .node "If" (condition.outline :: thenBranch.outline :: Stmt.optionalOutline elseBranch)
  | .whileLoop condition body => .node "While" [condition.outline, body.outline]
  | .breakLoop _ => .node "Break" []
  | .funcDecl declaration => declaration.outline "Function "
  | .classDecl name superclass methods =>
    .node ("Class " ++ classLabel name superclass) (FunctionDecl.outlines methods)
  | .returnValue _ value => .node "Return" (Expr.optionalOutline value)

/-- The outlines of statements. -/
def Stmt.outlines : List Stmt → List Outline
  | [] => []
  | s :: rest => s.outline :: Stmt.outlines rest

/-- The outline of a statement that may be left out. -/
def Stmt.optionalOutline : Option Stmt → List Outline
  | none => []
  | some s => [s.outline]

/-- The outline of a function, introduced by a word that says what kind of function it is. -/
def FunctionDecl.outline (word : String) : FunctionDecl → Outline
  | .mk name _ params body => .node (word ++ signatureText name params) (Stmt.outlines body)

/-- The outlines of the methods of a class. -/
def FunctionDecl.outlines : List FunctionDecl → List Outline
  | [] => []
  | method :: rest => method.outline "Method " :: FunctionDecl.outlines rest

end

/-- A program as text: one tree for each statement. -/
def outlineText (program : List Stmt) : String :=
  String.join ((Stmt.outlines program).map Outline.text)

end Lox
