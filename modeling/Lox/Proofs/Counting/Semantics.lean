import Lox.Proofs.Counting.Syntax
import Lox.Proofs.Lexical.Reference

/-!
  Running programs with counting loops.

  Programs are run as in `Lox.Proofs.Lexical.Reference`, with scopes that map names to cells, and counting
  loops as they are written.

  1. **The loop** (`rounds`).  The initializer is run once, in a fresh scope around the loop.  Each round
     evaluates the condition in that scope, a missing one being true, and runs the body in a fresh scope of
     its own.  If the body is completed normally the increment is evaluated, again in the scope of the
     initializer, and the next round follows; a `break` ends the loop and a `return` the function, and neither
     evaluates the increment.
  2. **What follows from the scopes.**  No name of the condition or of the increment can mean a variable that
     the body declares, and functions made in different rounds see the one variable of the initializer.
  3. **Everything else** is done as in the reference, with the steps on variables, fields and the host that it
     has.  They are written again because a function sees its text here, in which there may be counting loops
     (`Sight`); so a difference between the two could only lie in the loop.
-/

namespace Lox.Counting

/-- The scopes around a place, innermost first: the number of the cell that each name means. -/
abbrev Scopes := Lexical.Scopes

/-- What a function sees: the scopes around its text, and the text. -/
structure Sight where
  scopes : Scopes
  text : Function

/-- The closure of a text. -/
def close (text : Function) (scopes : Scopes) (isInitializer : Bool) : Closure Sight :=
  ⟨text.header, ⟨scopes, text⟩, isInitializer⟩

/-- What programs work on. -/
structure State where
  /-- The variables: nothing while a declaration has not been completed, else the value if there is one. -/
  cells : Array (Option (Option (Value Sight)))
  globals : Table (Option (Value Sight))
  /-- The fields of the instances. -/
  objects : Array (Table (Value Sight))
  /-- The next identity of a function or a class. -/
  nextIdentity : Nat
  host : Host

/-- A step of a run. -/
abbrev Run := Action State RuntimeError

/-! ## Names -/

namespace State

/-- The state before the first program: the globals are the native functions. -/
def start (host : Host) : State :=
  ⟨#[], Native.all.foldl (fun t n => t.insert n.name (some (.native n))) .empty, #[], 0, host⟩

/-- What a name stands for: nothing, a variable without a value or one with a value. -/
def slot? (s : State) (scopes : Scopes) (name : String) : Option (Option (Value Sight)) :=
  match Lexical.find? scopes name with
  | some cell => s.cells[cell]?.bind id
  | none => s.globals.get? name

/-- Gives a name a value, or leaves it without one. -/
def put (s : State) (scopes : Scopes) (name : String) (slot : Option (Value Sight)) : State :=
  match Lexical.find? scopes name with
  | some cell => { s with cells := s.cells.setIfInBounds cell (some slot) }
  | none => { s with globals := s.globals.insert name slot }

end State

/-- Fails at a token. -/
def failAt {α : Type} (token : Token) (fault : RuntimeFault) : Run α := .fail ⟨token, fault⟩

/-- Does a step that gives a value or a fault, which is then one at the token. -/
def liftAt {α : Type} (token : Token) : Except RuntimeFault α → Run α
  | .ok a => pure a
  | .error fault => failAt token fault

/-- The value of a name. -/
def lookUp (scopes : Scopes) (name : Token) : Run (Value Sight) := fun s =>
  match s.slot? scopes name.lexeme with
  | some (some value) => .done value s
  | some none => .failed ⟨name, .notInitialized⟩ s
  | none => .failed ⟨name, .undefinedVariable⟩ s

/-- Gives a declared name a value. -/
def assign (scopes : Scopes) (name : Token) (value : Value Sight) : Run Unit := fun s =>
  if (s.slot? scopes name.lexeme).isSome then .done () (s.put scopes name.lexeme (some value))
  else .failed ⟨name, .undefinedVariable⟩ s

/-- A new cell. -/
def newCell (cell : Option (Option (Value Sight))) : Run Nat := fun s =>
  .done s.cells.size { s with cells := s.cells.push cell }

/-- Adds a name with a new cell to the innermost scope.  There is nothing to add at top level. -/
def announce (name : String) (cell : Option (Option (Value Sight))) : Scopes → Run Scopes
  | [] => pure []
  | scope :: outer => do
    let number ← newCell cell
    pure (scope.insert name number :: outer)

/-- Completes the declaration of a name that has been announced.  Of a global it is the whole
    declaration, and no global is declared twice. -/
def settle (scopes : Scopes) (name : Token) (slot : Option (Value Sight)) : Run Unit := fun s =>
  if scopes.isEmpty && s.globals.contains name.lexeme then .failed ⟨name, .alreadyDefined⟩ s
  else .done () (s.put scopes name.lexeme slot)

/-! ## Functions and instances -/

/-- An identity that nothing has had before. -/
def newIdentity : Run Nat := fun s =>
  .done s.nextIdentity { s with nextIdentity := s.nextIdentity + 1 }

/-- The function value of a closure, unlike any other. -/
def functionValue (closure : Closure Sight) : Run (Value Sight) := do
  let identity ← newIdentity
  pure (.function identity closure)

/-- A new instance without fields. -/
def newObject : Run Nat := fun s =>
  .done s.objects.size { s with objects := s.objects.push .empty }

/-- The method with `this` bound to an instance. -/
def bindThis (method : Closure Sight) (this : Value Sight) : Run (Closure Sight) := do
  let cell ← newCell (some (some this))
  pure (close method.env.text (Table.empty.insert "this" cell :: method.env.scopes) method.isInitializer)

/-- A property of an instance: a field, or else a method, which is bound to the instance. -/
def getProperty (value : Value Sight) (name : Token) : Run (Value Sight) :=
  match value with
  | .object identity c => do
    match ← .read (·.objects[identity]?.bind (·.get? name.lexeme)) with
    | some field => pure field
    | none =>
      match c.method? name.lexeme with
      | none => failAt name .undefinedProperty
      | some method =>
        if name.lexeme = "init" then failAt name .directInitializer
        else functionValue (← bindThis method value)
  | _ => failAt name .noProperties

/-- Gives a field of an instance a value. -/
def setField (object : Nat) (name : Token) (value : Value Sight) : Run Unit :=
  .update fun s => { s with objects := s.objects.modify object (·.insert name.lexeme value) }

/-- The method that `super` names, bound to the instance that runs. -/
def superMethod (scopes : Scopes) (ref : Ref) (method : Token) : Run (Value Sight) := do
  match ← lookUp scopes ref.name with
  | .classOf superclass =>
    match ← lookUp scopes (Token.named "this" ref.name.line) with
    | .object identity c =>
      match superclass.method? method.lexeme with
      | some found => functionValue (← bindThis found (.object identity c))
      | none => failAt method .undefinedProperty
    | _ => failAt ref.name .thisNotInstance
  | _ => failAt ref.name .superclassNotClass

/-- Adds the parameters of a function to the innermost scope; the cell of a parameter without an
    argument stays empty. -/
def enterParams : List Token → List (Value Sight) → Scopes → Run Scopes
  | [], _, scopes => pure scopes
  | param :: params, given, scopes => do
    let scopes ← announce param.lexeme (given.head?.map some) scopes
    enterParams params given.tail scopes

/-- The class that a class extends. -/
def superclassOf (scopes : Scopes) (ref : Ref) : Run (Class Sight) := do
  match ← lookUp scopes ref.name with
  | .classOf c => pure c
  | _ => failAt ref.name .superclassNotClass

/-- The methods of a class by their names.  A later one of the same name takes the place of an earlier
    one. -/
def methodTable (methods : List Function) (scopes : Scopes) : Table (Closure Sight) :=
  methods.foldl
    (fun table f => table.insert f.header.displayName (close f scopes f.header.isInitializer)) .empty

/-- The scopes around the methods of a class: one with `super` is added if it extends another. -/
def aroundMethods (scopes : Scopes) : Option (Class Sight) → Run Scopes
  | none => pure scopes
  | some c => do
    let cell ← newCell (some (some (.classOf c)))
    pure (Table.empty.insert "super" cell :: scopes)

/-- Declares a class, and gives the scopes behind it. -/
def declareClass (scopes : Scopes) (name : Token) (superclass : Option Ref)
    (methods : List Function) : Run Scopes := do
  let parent ← superclass.elim (pure none) fun ref => some <$> superclassOf scopes ref
  let scopes ← announce name.lexeme none scopes
  settle scopes name none
  let around ← aroundMethods scopes parent
  let identity ← newIdentity
  let own : ClassBody Sight := ⟨identity, name.lexeme, methodTable methods around⟩
  assign scopes name (.classOf ⟨own, parent.elim [] Class.chain⟩)
  pure scopes

/-- Calls a native function. -/
def callNative (token : Token) (native : Native) (given : List (Value Sight)) : Run (Value Sight) :=
  fun s =>
    match Machine.nativeAnswer given s.host native with
    | (.ok value, host) => .done value { s with host := host }
    | (.error fault, host) => .failed ⟨token, fault⟩ { s with host := host }

/-- The value that a call gives back when the body of the closure has been completed. -/
def answer (closure : Closure Sight) (completion : Completion Sight) : Run (Value Sight) :=
  if closure.isInitializer then
    lookUp closure.env.scopes (Token.named "this" closure.declaration.keyword.line)
  else
    match completion with
    | .returned value => pure value
    | _ => pure .nil

/-- The value of an expression that may be left out. -/
def optional (value : Expr → Run (Value Sight)) : Option Expr → Run (Option (Value Sight))
  | none => pure none
  | some e => some <$> value e

/-! ## Programs

  The only function that is not in the reference is `rounds`. -/

mutual

/-- The value of an expression within scopes. -/
def evaluate : Nat → Scopes → Expr → Run (Value Sight)
  | 0, _, _ => .outOfFuel
  | _ + 1, _, .literal value => pure (.ofLiteral value)
  | fuel + 1, scopes, .grouping inner => evaluate fuel scopes inner
  | fuel + 1, scopes, .unary operator right => do
    let value ← evaluate fuel scopes right
    liftAt operator (Operator.unary operator.kind value)
  | fuel + 1, scopes, .binary left operator right => do
    let a ← evaluate fuel scopes left
    let b ← evaluate fuel scopes right
    liftAt operator (Operator.binary operator.kind a b)
  | fuel + 1, scopes, .logical left operator right => do
    let a ← evaluate fuel scopes left
    if Operator.shortCircuits operator.kind a then pure a else evaluate fuel scopes right
  | fuel + 1, scopes, .ternary condition thenBranch elseBranch => do
    let value ← evaluate fuel scopes condition
    if value.truthy then evaluate fuel scopes thenBranch else evaluate fuel scopes elseBranch
  | _ + 1, scopes, .variable ref => lookUp scopes ref.name
  | fuel + 1, scopes, .assign ref value => do
    let v ← evaluate fuel scopes value
    assign scopes ref.name v
    pure v
  | fuel + 1, scopes, .call callee paren arguments => do
    let function ← evaluate fuel scopes callee
    let given ← evaluateAll fuel scopes arguments
    call fuel function paren given
  | fuel + 1, scopes, .get object name => do
    let value ← evaluate fuel scopes object
    getProperty value name
  | fuel + 1, scopes, .set object name value => do
    match ← evaluate fuel scopes object with
    | .object identity _ =>
      let v ← evaluate fuel scopes value
      setField identity name v
      pure v
    | _ => failAt name .noFields
  | _ + 1, scopes, .lambda text => functionValue (close text scopes false)
  | _ + 1, scopes, .this ref => lookUp scopes ref.name
  | _ + 1, scopes, .super ref method => superMethod scopes ref method

/-- The values of expressions, from left to right. -/
def evaluateAll : Nat → Scopes → List Expr → Run (List (Value Sight))
  | 0, _, _ => .outOfFuel
  | _ + 1, _, [] => pure []
  | fuel + 1, scopes, e :: rest => do
    let first ← evaluate fuel scopes e
    let others ← evaluateAll fuel scopes rest
    pure (first :: others)

/-- The value of a call. -/
def call : Nat → Value Sight → Token → List (Value Sight) → Run (Value Sight)
  | 0, _, _, _ => .outOfFuel
  | _ + 1, .native native, paren, given => callNative paren native given
  | fuel + 1, .function _ closure, _, given => callClosure fuel closure given
  | fuel + 1, .classOf c, _, given => do
    let identity ← newObject
    let created := Value.object identity c
    match c.method? "init" with
    | none => pure created
    | some init =>
      let ready ← bindThis init created
      let _ ← callClosure fuel ready given
      pure created
  | _ + 1, _, paren, _ => failAt paren .notCallable

/-- The value of a call of a closure: its body runs in the scopes around its text and one more. -/
def callClosure : Nat → Closure Sight → List (Value Sight) → Run (Value Sight)
  | 0, _, _ => .outOfFuel
  | fuel + 1, closure, given => do
    let scopes ← enterParams closure.env.text.params given (.empty :: closure.env.scopes)
    let completion ← executeAll fuel scopes closure.env.text.body
    answer closure completion

/-- Runs a statement within scopes.  Gives the scopes behind it, too. -/
def execute : Nat → Scopes → Stmt → Run (Completion Sight × Scopes)
  | 0, _, _ => .outOfFuel
  | fuel + 1, scopes, .expression value => do
    let _ ← evaluate fuel scopes value
    pure (.normal, scopes)
  | fuel + 1, scopes, .value value => do
    let _ ← evaluate fuel scopes value
    pure (.normal, scopes)
  | fuel + 1, scopes, .varDecl name initializer => do
    let scopes ← announce name.lexeme none scopes
    let slot ← optional (evaluate fuel scopes) initializer
    settle scopes name slot
    pure (.normal, scopes)
  | fuel + 1, scopes, .block body => do
    let completion ← executeAll fuel (.empty :: scopes) body
    pure (completion, scopes)
  | fuel + 1, scopes, .ifElse condition thenBranch elseBranch => do
    let value ← evaluate fuel scopes condition
    if value.truthy then execute fuel scopes thenBranch
    else
      match elseBranch with
      | none => pure (.normal, scopes)
      | some branch => execute fuel scopes branch
  | fuel + 1, scopes, .whileLoop condition body => do
    let value ← evaluate fuel scopes condition
    if value.truthy then
      match (← execute fuel scopes body).1 with
      | .normal => execute fuel scopes (.whileLoop condition body)
      | .broke => pure (.normal, scopes)
      | .returned v => pure (.returned v, scopes)
    else
      pure (.normal, scopes)
  | fuel + 1, scopes, .forLoop initializer condition increment body => do
    match ← initializer.elim (pure (.normal, .empty :: scopes)) (execute fuel (.empty :: scopes)) with
    | (.normal, inside) =>
      let completion ← rounds fuel inside condition increment body
      pure (completion, scopes)
    | (other, _) => pure (other, scopes)
  | _ + 1, scopes, .breakLoop _ => pure (.broke, scopes)
  | _ + 1, scopes, .funcDecl text => do
    let name := text.header.name.getD text.header.keyword
    let scopes ← announce name.lexeme none scopes
    let value ← functionValue (close text scopes false)
    settle scopes name (some value)
    pure (.normal, scopes)
  | _ + 1, scopes, .classDecl name superclass methods => do
    let scopes ← declareClass scopes name superclass methods
    pure (.normal, scopes)
  | fuel + 1, scopes, .returnValue _ value => do
    let result ← optional (evaluate fuel scopes) value
    pure (.returned (result.getD .nil), scopes)

/-- The rounds of a counting loop, within the scopes behind its initializer. -/
def rounds : Nat → Scopes → Option Expr → Option Expr → List Stmt → Run (Completion Sight)
  | 0, _, _, _, _ => .outOfFuel
  | fuel + 1, scopes, condition, increment, body => do
    let test ← optional (evaluate fuel scopes) condition
    if (test.getD (.bool true)).truthy then
      match ← executeAll fuel (.empty :: scopes) body with
      | .normal =>
        let _ ← optional (evaluate fuel scopes) increment
        rounds fuel scopes condition increment body
      | .broke => pure .normal
      | .returned v => pure (.returned v)
    else
      pure .normal

/-- Runs statements in their order, each within the scopes behind the one before. -/
def executeAll : Nat → Scopes → List Stmt → Run (Completion Sight)
  | 0, _, _ => .outOfFuel
  | _ + 1, _, [] => pure .normal
  | fuel + 1, scopes, s :: rest => do
    match ← execute fuel scopes s with
    | (.normal, scopes) => executeAll fuel scopes rest
    | (other, _) => pure other

end

/-- Runs the statements of a program, at top level.  The value of the last expression that hands one
    back is the value of the program. -/
def runAll (fuel : Nat) : List Stmt → Option (Value Sight) → Run (Option (Value Sight))
  | [], last => pure last
  | .value e :: rest, _ => do
    let value ← evaluate fuel [] e
    runAll fuel rest (some value)
  | s :: rest, last => do
    let _ ← execute fuel [] s
    runAll fuel rest last

/-! ## Sessions -/

/-- A submission: its fuel, its source and the program that is read from it. -/
structure Submission where
  fuel : Nat
  source : String
  program : List Stmt

/-- The state between submissions. -/
structure Session where
  interactive : Bool
  state : State
  /-- The number of the next occurrence of a name. -/
  nextId : Nat

namespace Session

/-- The session before its first submission. -/
def start (interactive : Bool) (host : Host) : Session := ⟨interactive, .start host, 0⟩

/-- Runs a submission, unless something is reported about it.  There is no answer if the fuel does not
    suffice. -/
def run (submission : Submission) (s : Session) : Option (Lexical.Outcome × Session) :=
  let parsed := readProgram submission.source s.interactive s.nextId
  let faults := Lexical.Session.faults parsed
  let s := { s with nextId := parsed.nextId }
  if faults.isEmpty then
    match runAll submission.fuel submission.program none s.state with
    | .done value state => some (.finished (value.map Value.printed), { s with state := state })
    | .failed error state => some (.aborted error, { s with state := state })
    | .exhausted => none
  else
    some (.rejected faults.length, s)

/-- Runs submissions one after the other.  Gives how each ended and what it left of the host, with all
    that has been printed. -/
def transcript : List Submission → Session → Option (List (Lexical.Outcome × Host))
  | [], _ => some []
  | submission :: rest, s => do
    let (outcome, s) ← s.run submission
    let others ← s.transcript rest
    some ((outcome, s.state.host) :: others)

end Session

end Lox.Counting
