import Lox.Machine
import Lox.Operator

/-!
  Running programs.

  Expressions have values, and statements are completed in one of three ways (`Completion`).  A `break`
  completes the statements around it up to the nearest loop, a `return` up to the nearest call; neither is an
  error, and neither needs to be handled anywhere else.

  * **Frames.**  A block and a call run their statements in a frame of their own and put the current chain of
    frames back, however they end (`within`).  The parameters of a function share the frame of its body, and
    a loop has none beside that of the block that is its body.
  * **Order.**  Operands and arguments are evaluated from left to right, the callee before its arguments, and
    the instance before the value that one of its fields is given.
  * **Calls.**  A call of a class makes an instance, binds the initializer to it if there is one, and gives
    back the instance whatever the initializer returns.  An initializer that is called as a method gives it
    back as well (`answer`).
  * **Fuel.**  Programs need not end: each call to itself leaves the evaluator less fuel, and a run for which
    the fuel does not suffice has no answer.  More fuel never changes an answer that there is.

  `run` is the only place where an error is handled: it makes the globals current again.
-/

namespace Lox

/-- How a statement was completed. -/
inductive Completion (ρ : Type := Env) where
  /-- By coming to its end. -/
  | normal
  /-- By a `break`. -/
  | broke
  /-- By a `return`. -/
  | returned (value : Value ρ)

namespace Eval

open Machine

/-- The value of an expression that may be left out. -/
def optional (value : Expr → Eval Value) : Option Expr → Eval (Option Value)
  | none => pure none
  | some e => some <$> value e

/-- The value that a call gives back when the body of the closure has been completed.  An initializer
    gives back the instance it is bound to. -/
def answer (closure : Closure) (completion : Completion) : Eval Value :=
  if closure.isInitializer then
    let this := Token.named "this" closure.declaration.keyword.line
    atToken this (Store.get closure.env.frame "this")
  else
    match completion with
    | .returned value => pure value
    | _ => pure .nil

mutual

/-- The value of an expression. -/
def evaluate : Nat → Expr → Eval Value
  | 0, _ => .outOfFuel
  | _ + 1, .literal value => pure (.ofLiteral value)
  | fuel + 1, .grouping inner => evaluate fuel inner
  | fuel + 1, .unary operator right => do
    let value ← evaluate fuel right
    liftAt operator (Operator.unary operator.kind value)
  | fuel + 1, .binary left operator right => do
    let a ← evaluate fuel left
    let b ← evaluate fuel right
    liftAt operator (Operator.binary operator.kind a b)
  | fuel + 1, .logical left operator right => do
    let a ← evaluate fuel left
    if Operator.shortCircuits operator.kind a then pure a else evaluate fuel right
  | fuel + 1, .ternary condition thenBranch elseBranch => do
    let value ← evaluate fuel condition
    if value.truthy then evaluate fuel thenBranch else evaluate fuel elseBranch
  | _ + 1, .variable ref => lookUp ref
  | fuel + 1, .assign ref value => do
    let v ← evaluate fuel value
    assign ref v
    pure v
  | fuel + 1, .call callee paren arguments => do
    let function ← evaluate fuel callee
    let given ← evaluateAll fuel arguments
    call fuel function paren given
  | fuel + 1, .get object name => do
    let value ← evaluate fuel object
    getProperty value name
  | fuel + 1, .set object name value => do
    match ← evaluate fuel object with
    | .object identity _ =>
      let v ← evaluate fuel value
      setField identity name v
      pure v
    | _ => failAt name .noFields
  | _ + 1, .lambda declaration => do
    let env ← .read Machine.env
    functionValue ⟨declaration, env, false⟩
  | _ + 1, .this ref => lookUp ref
  | _ + 1, .super ref method => superMethod ref method

/-- The values of expressions, from left to right. -/
def evaluateAll : Nat → List Expr → Eval (List Value)
  | 0, _ => .outOfFuel
  | _ + 1, [] => pure []
  | fuel + 1, e :: rest => do
    let first ← evaluate fuel e
    let others ← evaluateAll fuel rest
    pure (first :: others)

/-- The value of a call.  Calling a class makes an instance, which its initializer gets ready. -/
def call : Nat → Value → Token → List Value → Eval Value
  | 0, _, _, _ => .outOfFuel
  | _ + 1, .native native, paren, given => callNative paren native given
  | fuel + 1, .function _ closure, _, given => callClosure fuel closure given
  | fuel + 1, .classOf c, _, given => do
    let identity ← make Store.newObject
    let created := Value.object identity c
    match c.method? "init" with
    | none => pure created
    | some init =>
      let ready ← bindThis init created
      let _ ← callClosure fuel ready given
      pure created
  | _ + 1, _, paren, _ => failAt paren .notCallable

/-- The value of a call of a closure: its parameters and its body share a frame. -/
def callClosure : Nat → Closure → List Value → Eval Value
  | 0, _, _ => .outOfFuel
  | fuel + 1, closure, given => do
    let declaration := closure.declaration
    let env ← make (Store.push closure.env .empty)
    defineParams env.frame declaration.params given
    let completion ← within env (executeAll fuel declaration.body)
    answer closure completion

/-- Runs a statement. -/
def execute : Nat → Stmt → Eval Completion
  | 0, _ => .outOfFuel
  | fuel + 1, .expression value => do
    let _ ← evaluate fuel value
    pure .normal
  | fuel + 1, .value value => do
    let _ ← evaluate fuel value
    pure .normal
  | fuel + 1, .varDecl name initializer => do
    let slot ← optional (evaluate fuel) initializer
    define name slot
    pure .normal
  | fuel + 1, .block body => do
    let env ← .read Machine.env
    let inner ← make (Store.push env .empty)
    within inner (executeAll fuel body)
  | fuel + 1, .ifElse condition thenBranch elseBranch => do
    let value ← evaluate fuel condition
    if value.truthy then execute fuel thenBranch
    else
      match elseBranch with
      | none => pure .normal
      | some branch => execute fuel branch
  | fuel + 1, .whileLoop condition body => do
    let value ← evaluate fuel condition
    if value.truthy then
      match ← execute fuel body with
      | .normal => execute fuel (.whileLoop condition body)
      | .broke => pure .normal
      | .returned v => pure (.returned v)
    else
      pure .normal
  | _ + 1, .breakLoop _ => pure .broke
  | _ + 1, .funcDecl declaration => do
    let env ← .read Machine.env
    let name := declaration.name.getD declaration.keyword
    let value ← functionValue ⟨declaration, env, false⟩
    define name (some value)
    pure .normal
  | _ + 1, .classDecl name superclass methods => do
    declareClass name superclass methods
    pure .normal
  | fuel + 1, .returnValue _ value => do
    let result ← optional (evaluate fuel) value
    pure (.returned (result.getD .nil))

/-- Runs statements in their order, up to the first that is not completed normally. -/
def executeAll : Nat → List Stmt → Eval Completion
  | 0, _ => .outOfFuel
  | _ + 1, [] => pure .normal
  | fuel + 1, s :: rest => do
    match ← execute fuel s with
    | .normal => executeAll fuel rest
    | other => pure other

end

/-! ## Programs -/

/-- Runs the statements of a program.  What completes a statement does not matter here; the value of
    the last expression that hands one back is the value of the program. -/
def runAll (fuel : Nat) : List Stmt → Option Value → Eval (Option Value)
  | [], last => pure last
  | .value e :: rest, _ => do
    let value ← evaluate fuel e
    runAll fuel rest (some value)
  | s :: rest, last => do
    let _ ← execute fuel s
    runAll fuel rest last

/-- Runs a program.  After an error the globals are current again. -/
def run (fuel : Nat) (program : List Stmt) : Eval (Option Value) :=
  .recover (runAll fuel program none) fun e => do
    .update fun m => { m with env := .global }
    .fail e

end Eval

end Lox
