import Lox.Diagnostic
import Lox.Syntax
import Lox.Table
import Std.Data.TreeMap

/-!
  Matching names with declarations.

  A walk over a program keeps the scopes that enclose the present place, innermost first, and records for
  every occurrence of a name how many scopes lie between it and the scope that has declared the name.  An
  occurrence that no scope accounts for is left out and means a global.  Top-level declarations stand in no
  scope, so that nothing about them is recorded or reported.

  * **Scopes** (`Walk.enter`, `Walk.leave`).  There is one for every frame that running makes: for a block, for
    the parameters and the body of a function together, for `this` around methods, and for `super` around
    that.  The distances are right only because of this.
  * **Standing.**  A name is declared before its initializer is walked over and defined after it.  Between the
    two it cannot be used in the innermost scope (`inOwnInitializer`); from an inner one it can.
  * **Surroundings** (`Context`).  Whether a `return`, `this` or `super` is allowed depends on the body and on
    the class around it, which are handed down and not kept in the state of the walk.

  What is wrong is reported as it is found, and never ends the walk.
-/

namespace Lox

/-- How many scopes lie between an occurrence of a name, given by its number, and its
    declaration. -/
abbrev Resolution := Std.TreeMap Nat Nat

/-- How far a name of a scope has come. -/
inductive Standing where
  /-- It is declared, and its initializer is being read. -/
  | declared
  /-- It can be used. -/
  | defined
  deriving DecidableEq, Repr

/-- The names of a block, a function or a class. -/
abbrev Scope := Table Standing

/-- The innermost function body around a place. -/
inductive BodyKind where
  | topLevel | function | method | initializer
  deriving DecidableEq, Repr

/-- The innermost class around a place. -/
inductive ClassKind where
  | outside | plain | subclass
  deriving DecidableEq, Repr

namespace Scope

/-- What surrounds a place. -/
structure Context where
  body : BodyKind
  owner : ClassKind
  deriving DecidableEq, Repr

/-- The surroundings of a program. -/
def Context.topLevel : Context := ⟨.topLevel, .outside⟩

/-- The state of a walk. -/
structure Walk where
  /-- The scopes around the present place, innermost first. -/
  scopes : List Scope
  found : Resolution
  problems : Array Diagnostic

namespace Walk

/-- The walk before its first step. -/
def start : Walk := ⟨[], ∅, #[]⟩

/-- Reports a fault. -/
def report (token : Token) (fault : ScopingFault) (w : Walk) : Walk :=
  { w with problems := w.problems.push (.scoping token fault) }

/-- Enters a scope. -/
def enter (w : Walk) : Walk := { w with scopes := .empty :: w.scopes }

/-- Leaves the innermost scope. -/
def leave (w : Walk) : Walk := { w with scopes := w.scopes.tail }

/-- Makes a name of the innermost scope usable. -/
def define (name : String) (w : Walk) : Walk :=
  match w.scopes with
  | [] => w
  | scope :: outer => { w with scopes := scope.insert name .defined :: outer }

/-- Declares a name in the innermost scope.  A name that the scope has already is reported. -/
def declare (name : Token) (w : Walk) : Walk :=
  match w.scopes with
  | [] => w
  | scope :: outer =>
    if scope.contains name.lexeme then w.report name .alreadyDeclared
    else { w with scopes := scope.insert name.lexeme .declared :: outer }

/-- Declares a name that can be used at once. -/
def bind (name : Token) (w : Walk) : Walk := (w.declare name).define name.lexeme

/-- The number of scopes between the present place and the innermost one that has the name. -/
def distance? (w : Walk) (name : String) : Option Nat := w.scopes.findIdx? (·.contains name)

/-- Records the distance of an occurrence, if a scope has its name. -/
def locate (ref : Ref) (w : Walk) : Walk :=
  match w.distance? ref.name.lexeme with
  | some distance => { w with found := w.found.insert ref.id distance }
  | none => w

/-- Whether the innermost scope has the name, with its initializer still being read. -/
def inOwnInitializer (w : Walk) (name : String) : Bool :=
  match w.scopes with
  | [] => false
  | scope :: _ => decide (scope.get? name = some .declared)

/-- An occurrence of a variable that is read. -/
def use (ref : Ref) (w : Walk) : Walk :=
  let w := if w.inOwnInitializer ref.name.lexeme then w.report ref.name .ownInitializer else w
  w.locate ref

/-- An occurrence of `this`. -/
def useThis (owner : ClassKind) (ref : Ref) (w : Walk) : Walk :=
  match owner with
  | .outside => w.report ref.name .thisOutsideClass
  | _ => w.locate ref

/-- An occurrence of `super`. -/
def useSuper (owner : ClassKind) (ref : Ref) (w : Walk) : Walk :=
  match owner with
  | .outside => w.report ref.name .superOutsideClass
  | .plain => w.report ref.name .superWithoutSuperclass
  | .subclass => w.locate ref

/-- The class that another one extends. -/
def useSuperclass (name : Token) (ref : Ref) (w : Walk) : Walk :=
  let w := if ref.name.lexeme = name.lexeme then w.report ref.name .selfInheritance else w
  w.use ref

/-- A `return`, with or without a value. -/
def checkReturn (body : BodyKind) (keyword : Token) (hasValue : Bool) (w : Walk) : Walk :=
  match body with
  | .topLevel => w.report keyword .topLevelReturn
  | .initializer => if hasValue then w.report keyword .initializerReturn else w
  | _ => w

/-- Enters the scopes around the methods of a class: one with `super` if it extends another, and one
    with `this`. -/
def enterClass (extending : Bool) (w : Walk) : Walk :=
  let w := if extending then w.enter.define "super" else w
  w.enter.define "this"

/-- Leaves the scopes around the methods of a class. -/
def leaveClass (extending : Bool) (w : Walk) : Walk :=
  if extending then w.leave.leave else w.leave

end Walk

/-- The kind of body that a method has. -/
def methodKind (method : FunctionDecl) : BodyKind :=
  if method.isInitializer then .initializer else .method

mutual

/-- Walks over an expression. -/
def walkExpr (ctx : Context) : Expr → Walk → Walk
  | .literal _, w => w
  | .grouping inner, w => walkExpr ctx inner w
  | .unary _ right, w => walkExpr ctx right w
  | .binary left _ right, w => walkExpr ctx right (walkExpr ctx left w)
  | .logical left _ right, w => walkExpr ctx right (walkExpr ctx left w)
  | .ternary condition thenBranch elseBranch, w =>
    walkExpr ctx elseBranch (walkExpr ctx thenBranch (walkExpr ctx condition w))
  | .variable ref, w => w.use ref
  | .assign ref value, w => (walkExpr ctx value w).locate ref
  | .call callee _ arguments, w => walkExprs ctx arguments (walkExpr ctx callee w)
  | .get object _, w => walkExpr ctx object w
  | .set object _ value, w => walkExpr ctx value (walkExpr ctx object w)
  | .lambda declaration, w => walkFunction ctx .function declaration w
  | .this ref, w => w.useThis ctx.owner ref
  | .super ref _, w => w.useSuper ctx.owner ref

/-- Walks over expressions from left to right. -/
def walkExprs (ctx : Context) : List Expr → Walk → Walk
  | [], w => w
  | e :: rest, w => walkExprs ctx rest (walkExpr ctx e w)

/-- Walks over an expression that may be left out. -/
def walkOptional (ctx : Context) : Option Expr → Walk → Walk
  | none, w => w
  | some e, w => walkExpr ctx e w

/-- Walks over a statement. -/
def walkStmt (ctx : Context) : Stmt → Walk → Walk
  | .expression value, w => walkExpr ctx value w
  | .value value, w => walkExpr ctx value w
  | .varDecl name initializer, w =>
    (walkOptional ctx initializer (w.declare name)).define name.lexeme
  | .block body, w => (walkStmts ctx body w.enter).leave
  | .ifElse condition thenBranch elseBranch, w =>
    walkElse ctx elseBranch (walkStmt ctx thenBranch (walkExpr ctx condition w))
  | .whileLoop condition body, w => walkStmt ctx body (walkExpr ctx condition w)
  | .breakLoop _, w => w
  | .funcDecl declaration, w =>
    let w := declaration.name.elim w w.bind
    walkFunction ctx .function declaration w
  | .classDecl name superclass methods, w =>
    let w := w.bind name
    let w := superclass.elim w fun ref => w.useSuperclass name ref
    let owner := if superclass.isSome then .subclass else .plain
    (walkMethods ⟨ctx.body, owner⟩ methods (w.enterClass superclass.isSome)).leaveClass
      superclass.isSome
  | .returnValue keyword value, w =>
    walkOptional ctx value (w.checkReturn ctx.body keyword value.isSome)

/-- Walks over statements in their order. -/
def walkStmts (ctx : Context) : List Stmt → Walk → Walk
  | [], w => w
  | s :: rest, w => walkStmts ctx rest (walkStmt ctx s w)

/-- Walks over a branch that may be left out. -/
def walkElse (ctx : Context) : Option Stmt → Walk → Walk
  | none, w => w
  | some s, w => walkStmt ctx s w

/-- Walks over a function: its parameters and its body share one scope. -/
def walkFunction (ctx : Context) (kind : BodyKind) : FunctionDecl → Walk → Walk
  | .mk _ _ params body, w =>
    let w := params.foldl (fun w param => w.bind param) w.enter
    (walkStmts ⟨kind, ctx.owner⟩ body w).leave

/-- Walks over the methods of a class. -/
def walkMethods (ctx : Context) : List FunctionDecl → Walk → Walk
  | [], w => w
  | method :: rest, w =>
    walkMethods ctx rest (walkFunction ctx (methodKind method) method w)

end

end Scope

/-- What matching the names of a program gives. -/
structure Resolved where
  resolution : Resolution
  diagnostics : List Diagnostic

/-- Matches the names of a program with its declarations. -/
def resolve (program : List Stmt) : Resolved :=
  let w := Scope.walkStmts .topLevel program .start
  ⟨w.found, w.problems.toList⟩

end Lox
