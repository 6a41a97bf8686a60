import Lox.Grammar.Rules

/-!
  Programs with counting loops.

  These are the trees of programs as they are written: as in `Lox.Syntax`, and with one more, which holds the
  parts of a counting loop.  They are there to say what such a loop means without saying what the parser makes
  of it.

  1. **Trees** (`Expr`, `Stmt`, `Function`).  The parts of a counting loop are its initializer, condition and
     increment, each of which may be left out, and its body.
  2. **Lowering** (`lower`).  What the grammar makes of such a tree: every counting loop is written with a
     `while` loop and blocks (`Grammar.countingLoop`), and nothing else is changed.  This includes loops in
     the bodies of functions and methods, wherever these stand.
  3. **Tokens** (`written`).  The kinds of the tokens that the tree is written with, in their order.  By these
     the tree that belongs to a source is pinned down: two different loops could be lowered to the same tree,
     but they are not written with the same tokens.
-/

namespace Lox.Counting

mutual

/-- Expressions. -/
inductive Expr where
  | literal (value : Literal)
  | grouping (inner : Expr)
  | unary (operator : Token) (right : Expr)
  | binary (left : Expr) (operator : Token) (right : Expr)
  | logical (left : Expr) (operator : Token) (right : Expr)
  | ternary (condition thenBranch elseBranch : Expr)
  | variable (ref : Ref)
  | assign (ref : Ref) (value : Expr)
  | call (callee : Expr) (paren : Token) (arguments : List Expr)
  | get (object : Expr) (name : Token)
  | set (object : Expr) (name : Token) (value : Expr)
  | lambda (text : Function)
  | this (ref : Ref)
  | super (ref : Ref) (method : Token)

/-- Statements. -/
inductive Stmt where
  | expression (value : Expr)
  | value (value : Expr)
  | varDecl (name : Token) (initializer : Option Expr)
  | block (body : List Stmt)
  | ifElse (condition : Expr) (thenBranch : Stmt) (elseBranch : Option Stmt)
  | whileLoop (condition : Expr) (body : Stmt)
  /-- A counting loop; its body is a block. -/
  | forLoop (initializer : Option Stmt) (condition increment : Option Expr) (body : List Stmt)
  | breakLoop (keyword : Token)
  | funcDecl (text : Function)
  | classDecl (name : Token) (superclass : Option Ref) (methods : List Function)
  | returnValue (keyword : Token) (value : Option Expr)

/-- Functions, methods and lambdas. -/
inductive Function where
  | mk (name : Option Token) (keyword : Token) (params : List Token) (body : List Stmt)

end

namespace Function

/-- What is seen of the function without running it: all but its body. -/
def header : Function → FunctionDecl
  | mk name keyword params _ => .mk name keyword params []

/-- The parameters. -/
def params : Function → List Token
  | mk _ _ params _ => params

/-- The statements of the body. -/
def body : Function → List Stmt
  | mk _ _ _ body => body

end Function

/-! ## Without counting loops -/

mutual

/-- The expression, with every counting loop in it written with a `while` loop. -/
def Expr.lower : Expr → Lox.Expr
  | .literal value => .literal value
  | .grouping inner => .grouping inner.lower
  | .unary operator right => .unary operator right.lower
  | .binary left operator right => .binary left.lower operator right.lower
  | .logical left operator right => .logical left.lower operator right.lower
  | .ternary condition thenBranch elseBranch =>
    .ternary condition.lower thenBranch.lower elseBranch.lower
  | .variable ref => .variable ref
  | .assign ref value => .assign ref value.lower
  | .call callee paren arguments => .call callee.lower paren (lowerExprs arguments)
  | .get object name => .get object.lower name
  | .set object name value => .set object.lower name value.lower
  | .lambda text => .lambda text.lower
  | .this ref => .this ref
  | .super ref method => .super ref method

/-- So it is with all of the expressions. -/
def lowerExprs : List Expr → List Lox.Expr
  | [] => []
  | e :: es => e.lower :: lowerExprs es

/-- So it is with the expression, if there is one. -/
def lowerOptional : Option Expr → Option Lox.Expr
  | none => none
  | some e => some e.lower

/-- The statement, with every counting loop in it written with a `while` loop. -/
def Stmt.lower : Stmt → Lox.Stmt
  | .expression value => .expression value.lower
  | .value value => .value value.lower
  | .varDecl name initializer => .varDecl name (lowerOptional initializer)
  | .block body => .block (lowerStmts body)
  | .ifElse condition thenBranch elseBranch =>
    .ifElse condition.lower thenBranch.lower (lowerBranch elseBranch)
  | .whileLoop condition body => .whileLoop condition.lower body.lower
  | .forLoop initializer condition increment body =>
    Grammar.countingLoop (lowerBranch initializer) (lowerOptional condition) (lowerOptional increment)
      (.block (lowerStmts body))
  | .breakLoop keyword => .breakLoop keyword
  | .funcDecl text => .funcDecl text.lower
  | .classDecl name superclass methods => .classDecl name superclass (lowerMethods methods)
  | .returnValue keyword value => .returnValue keyword (lowerOptional value)

/-- So it is with all of the statements. -/
def lowerStmts : List Stmt → List Lox.Stmt
  | [] => []
  | s :: ss => s.lower :: lowerStmts ss

/-- So it is with the statement, if there is one. -/
def lowerBranch : Option Stmt → Option Lox.Stmt
  | none => none
  | some s => some s.lower

/-- The function, with every counting loop in it written with a `while` loop. -/
def Function.lower : Function → FunctionDecl
  | .mk name keyword params body => .mk name keyword params (lowerStmts body)

/-- So it is with all of the functions. -/
def lowerMethods : List Function → List FunctionDecl
  | [] => []
  | f :: fs => f.lower :: lowerMethods fs

end

/-! ## What trees are written with

  A token is given by its kind.  Numerals and strings come with what they stand for, names without, since what
  is pinned down is which tree it is and not how it is spelled. -/

/-- Phrases with commas between them. -/
def separated : List (List TokenKind) → List TokenKind
  | [] => []
  | [phrase] => phrase
  | phrase :: next :: rest => phrase ++ .mark .comma :: separated (next :: rest)

/-- What a constant is written with. -/
def literalKind : Literal → TokenKind
  | .nil => .keyword .nilKw
  | .bool true => .keyword .trueKw
  | .bool false => .keyword .falseKw
  | .number value => .number value
  | .string value => .string value

mutual

/-- The kinds of the tokens that the expression is written with. -/
def Expr.written : Expr → List TokenKind
  | .literal value => [literalKind value]
  | .grouping inner => .mark .leftParen :: inner.written ++ [.mark .rightParen]
  | .unary operator right => operator.kind :: right.written
  | .binary left operator right => left.written ++ operator.kind :: right.written
  | .logical left operator right => left.written ++ operator.kind :: right.written
  | .ternary condition thenBranch elseBranch =>
    condition.written ++ .mark .question :: thenBranch.written ++ .mark .colon :: elseBranch.written
  | .variable _ => [.identifier]
  | .assign _ value => .identifier :: .mark .equal :: value.written
  | .call callee _ arguments =>
    callee.written ++ .mark .leftParen :: separated (writtenExprs arguments) ++ [.mark .rightParen]
  | .get object _ => object.written ++ [.mark .dot, .identifier]
  | .set object _ value => object.written ++ .mark .dot :: .identifier :: .mark .equal :: value.written
  | .lambda text => text.written
  | .this _ => [.keyword .thisKw]
  | .super _ _ => [.keyword .superKw, .mark .dot, .identifier]

/-- What each of the expressions is written with. -/
def writtenExprs : List Expr → List (List TokenKind)
  | [] => []
  | e :: es => e.written :: writtenExprs es

/-- What the expression is written with, if there is one. -/
def writtenOptional : Option Expr → List TokenKind
  | none => []
  | some e => e.written

/-- The kinds of the tokens that the statement is written with. -/
def Stmt.written : Stmt → List TokenKind
  | .expression value => value.written ++ [.mark .semicolon]
  | .value value => value.written
  | .varDecl _ none => [.keyword .varKw, .identifier, .mark .semicolon]
  | .varDecl _ (some initializer) =>
    .keyword .varKw :: .identifier :: .mark .equal :: initializer.written ++ [.mark .semicolon]
  | .block body => .mark .leftBrace :: writtenStmts body ++ [.mark .rightBrace]
  | .ifElse condition thenBranch none => .keyword .ifKw :: condition.written ++ thenBranch.written
  | .ifElse condition thenBranch (some elseBranch) =>
    .keyword .ifKw :: condition.written ++ thenBranch.written ++ .keyword .elseKw :: elseBranch.written
  | .whileLoop condition body => .keyword .whileKw :: condition.written ++ body.written
  | .forLoop initializer condition increment body =>
    .keyword .forKw :: writtenInitializer initializer ++ writtenOptional condition ++
      .mark .semicolon :: writtenOptional increment ++
      .mark .leftBrace :: writtenStmts body ++ [.mark .rightBrace]
  | .breakLoop _ => [.keyword .breakKw, .mark .semicolon]
  | .funcDecl text => text.written
  | .classDecl _ superclass methods =>
    .keyword .classKw :: .identifier :: superclass.elim [] (fun _ => [.mark .less, .identifier]) ++
      .mark .leftBrace :: writtenMethods methods ++ [.mark .rightBrace]
  | .returnValue _ value => .keyword .returnKw :: writtenOptional value ++ [.mark .semicolon]

/-- What the statements are written with, one behind the other. -/
def writtenStmts : List Stmt → List TokenKind
  | [] => []
  | s :: ss => s.written ++ writtenStmts ss

/-- What the initializer of a counting loop is written with.  Its semicolon is always there. -/
def writtenInitializer : Option Stmt → List TokenKind
  | none => [.mark .semicolon]
  | some s => s.written

/-- The kinds of the tokens that the function is written with. -/
def Function.written : Function → List TokenKind
  | .mk name _ params body =>
    .keyword .funcKw :: name.elim [] (fun _ => [.identifier]) ++
      .mark .leftParen :: separated (params.map fun _ => [.identifier]) ++
      .mark .rightParen :: .mark .leftBrace :: writtenStmts body ++ [.mark .rightBrace]

/-- What the methods are written with, one behind the other. -/
def writtenMethods : List Function → List TokenKind
  | [] => []
  | f :: fs => f.written ++ writtenMethods fs

end

end Lox.Counting
