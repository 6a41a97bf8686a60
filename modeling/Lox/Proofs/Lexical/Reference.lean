import Lox.Session

/-!
  Running programs with scopes that map names to cells.

  This is what the language means, without frames and without distances.  Every place of a program
  has an immutable list of scopes, which say for each name in them which cell it means there.  What is
  entered adds a scope and what is declared adds a name with a new cell to the innermost one, so that
  a function sees the names that are there at the place of its text, and no others.  A name that no
  scope has is looked up among the globals when it is reached.

  A variable has its cell before its initializer is evaluated, and the cell is empty until then.

  Scopes are values: they are handed down to the parts of a program and back from a declaration, and nothing
  ever changes them.  Only the cells are state.  So a function that has been made keeps the scopes of its place,
  whatever is declared around it later, and this needs no record of distances and no walk over the program
  before it runs.  Everything else (the operators, the native functions, what an error says) is shared with
  the machine, and the sessions are those of the console: they are read, refused and answered in the same way.
-/

namespace Lox.Lexical

/-- The scopes around a place, innermost first: the number of the cell that each name means. -/
abbrev Scopes := List (Table Nat)

/-- What a cell holds. -/
inductive Cell where
  /-- Nothing, since the declaration has not been completed. -/
  | empty
  /-- A variable without a value. -/
  | unset
  | holds (value : Value Scopes)

namespace Cell

/-- Whether the variable is declared, and its value if it has one. -/
def slot : Cell → Option (Option (Value Scopes))
  | empty => none
  | unset => some none
  | holds value => some (some value)

/-- The cell of a declared variable. -/
def declared : Option (Value Scopes) → Cell
  | none => unset
  | some value => holds value

end Cell

/-- What programs work on. -/
structure State where
  cells : Array Cell
  globals : Table (Option (Value Scopes))
  /-- The fields of the instances. -/
  objects : Array (Table (Value Scopes))
  /-- The next identity of a function or a class. -/
  nextIdentity : Nat
  host : Host

/-- A step of a run. -/
abbrev Run := Action State RuntimeError

/-! ## Names

  A name means the cell that the innermost scope with it has for it, and otherwise a global.  There are no
  distances, and nothing is resolved beforehand. -/

/-- The cell that a name means, if a scope has it. -/
def find? (scopes : Scopes) (name : String) : Option Nat := scopes.findSome? (·.get? name)

namespace State

/-- The state before the first program: the globals are the native functions. -/
def start (host : Host) : State :=
  ⟨#[], Native.all.foldl (fun t n => t.insert n.name (some (.native n))) .empty, #[], 0, host⟩

/-- What a name stands for: nothing, a variable without a value or one with a value. -/
def slot? (s : State) (scopes : Scopes) (name : String) : Option (Option (Value Scopes)) :=
  match find? scopes name with
  | some cell => s.cells[cell]?.bind Cell.slot
  | none => s.globals.get? name

/-- Gives a name a value, or leaves it without one. -/
def put (s : State) (scopes : Scopes) (name : String) (slot : Option (Value Scopes)) : State :=
  match find? scopes name with
  | some cell => { s with cells := s.cells.setIfInBounds cell (.declared slot) }
  | none => { s with globals := s.globals.insert name slot }

end State

/-- Fails at a token. -/
def failAt {α : Type} (token : Token) (fault : RuntimeFault) : Run α := .fail ⟨token, fault⟩

/-- Does a step that gives a value or a fault, which is then one at the token. -/
def liftAt {α : Type} (token : Token) : Except RuntimeFault α → Run α
  | .ok a => pure a
  | .error fault => failAt token fault

/-- The value of a name. -/
def lookUp (scopes : Scopes) (name : Token) : Run (Value Scopes) := fun s =>
  match s.slot? scopes name.lexeme with
  | some (some value) => .done value s
  | some none => .failed ⟨name, .notInitialized⟩ s
  | none => .failed ⟨name, .undefinedVariable⟩ s

/-- Gives a declared name a value. -/
def assign (scopes : Scopes) (name : Token) (value : Value Scopes) : Run Unit := fun s =>
  if (s.slot? scopes name.lexeme).isSome then .done () (s.put scopes name.lexeme (some value))
  else .failed ⟨name, .undefinedVariable⟩ s

/-- A new cell. -/
def newCell (cell : Cell) : Run Nat := fun s =>
  .done s.cells.size { s with cells := s.cells.push cell }

/-- Adds a name with a new cell to the innermost scope.  There is nothing to add at top level. -/
def announce (name : String) (cell : Cell) : Scopes → Run Scopes
  | [] => pure []
  | scope :: outer => do
    let number ← newCell cell
    pure (scope.insert name number :: outer)

/-- Completes the declaration of a name that has been announced.  Of a global it is the whole
    declaration, and no global is declared twice. -/
def settle (scopes : Scopes) (name : Token) (slot : Option (Value Scopes)) : Run Unit := fun s =>
  if scopes.isEmpty && s.globals.contains name.lexeme then .failed ⟨name, .alreadyDefined⟩ s
  else .done () (s.put scopes name.lexeme slot)

/-! ## Functions and instances -/

/-- An identity that nothing has had before. -/
def newIdentity : Run Nat := fun s =>
  .done s.nextIdentity { s with nextIdentity := s.nextIdentity + 1 }

/-- The function value of a closure, unlike any other. -/
def functionValue (closure : Closure Scopes) : Run (Value Scopes) := do
  let identity ← newIdentity
  pure (.function identity closure)

/-- A new instance without fields. -/
def newObject : Run Nat := fun s =>
  .done s.objects.size { s with objects := s.objects.push .empty }

/-- The method with `this` bound to an instance. -/
def bindThis (method : Closure Scopes) (this : Value Scopes) : Run (Closure Scopes) := do
  let cell ← newCell (.holds this)
  pure { method with env := Table.empty.insert "this" cell :: method.env }

/-- A property of an instance: a field, or else a method, which is bound to the instance. -/
def getProperty (value : Value Scopes) (name : Token) : Run (Value Scopes) :=
  match value with
  | .object identity c => do
    match ← .read (·.objects[identity]?.bind (·.get? name.lexeme)) with
    | some field => pure field
    | none =>
      match c.method? name.lexeme with
      | none => failAt name .undefinedProperty
      | some method =>
        if name.lexeme = "init" then failAt name .directInitializer
        else functionValue (← bindThis method value)
  | _ => failAt name .noProperties

/-- Gives a field of an instance a value. -/
def setField (object : Nat) (name : Token) (value : Value Scopes) : Run Unit :=
  .update fun s => { s with objects := s.objects.modify object (·.insert name.lexeme value) }

/-- The method that `super` names, bound to the instance that runs. -/
def superMethod (scopes : Scopes) (ref : Ref) (method : Token) : Run (Value Scopes) := do
  match ← lookUp scopes ref.name with
  | .classOf superclass =>
    match ← lookUp scopes (Token.named "this" ref.name.line) with
    | .object identity c =>
      match superclass.method? method.lexeme with
      | some found => functionValue (← bindThis found (.object identity c))
      | none => failAt method .undefinedProperty
    | _ => failAt ref.name .thisNotInstance
  | _ => failAt ref.name .superclassNotClass

/-- Adds the parameters of a function to the innermost scope; the cell of a parameter without an
    argument stays empty. -/
def enterParams : List Token → List (Value Scopes) → Scopes → Run Scopes
  | [], _, scopes => pure scopes
  | param :: params, given, scopes => do
    let scopes ← announce param.lexeme (given.head?.elim .empty .holds) scopes
    enterParams params given.tail scopes

/-- The class that a class extends. -/
def superclassOf (scopes : Scopes) (ref : Ref) : Run (Class Scopes) := do
  match ← lookUp scopes ref.name with
  | .classOf c => pure c
  | _ => failAt ref.name .superclassNotClass

/-- The scopes around the methods of a class: one with `super` is added if it extends another. -/
def aroundMethods (scopes : Scopes) : Option (Class Scopes) → Run Scopes
  | none => pure scopes
  | some c => do
    let cell ← newCell (.holds (.classOf c))
    pure (Table.empty.insert "super" cell :: scopes)

/-- Declares a class, and gives the scopes behind it. -/
def declareClass (scopes : Scopes) (name : Token) (superclass : Option Ref)
    (methods : List FunctionDecl) : Run Scopes := do
  let parent ← superclass.elim (pure none) fun ref => some <$> superclassOf scopes ref
  let scopes ← announce name.lexeme .empty scopes
  settle scopes name none
  let around ← aroundMethods scopes parent
  let identity ← newIdentity
  let own : ClassBody Scopes := ⟨identity, name.lexeme, Machine.methodTable methods around⟩
  assign scopes name (.classOf ⟨own, parent.elim [] Class.chain⟩)
  pure scopes

/-- Calls a native function. -/
def callNative (token : Token) (native : Native) (given : List (Value Scopes)) :
    Run (Value Scopes) := fun s =>
  match Machine.nativeAnswer given s.host native with
  | (.ok value, host) => .done value { s with host := host }
  | (.error fault, host) => .failed ⟨token, fault⟩ { s with host := host }

/-- The value that a call gives back when the body of the closure has been completed. -/
def answer (closure : Closure Scopes) (completion : Completion Scopes) : Run (Value Scopes) :=
  if closure.isInitializer then
    lookUp closure.env (Token.named "this" closure.declaration.keyword.line)
  else
    match completion with
    | .returned value => pure value
    | _ => pure .nil

/-- The value of an expression that may be left out. -/
def optional (value : Expr → Run (Value Scopes)) : Option Expr → Run (Option (Value Scopes))
  | none => pure none
  | some e => some <$> value e

/-! ## Programs

  Scopes are handed down as values.  What a declaration adds is seen by the statements behind it, and by nothing
  else. -/

mutual

/-- The value of an expression within scopes. -/
def evaluate : Nat → Scopes → Expr → Run (Value Scopes)
  | 0, _, _ => .outOfFuel
  | _ + 1, _, .literal value => pure (.ofLiteral value)
  | fuel + 1, scopes, .grouping inner => evaluate fuel scopes inner
  | fuel + 1, scopes, .unary operator right => do
    let value ← evaluate fuel scopes right
    liftAt operator (Operator.unary operator.kind value)
  | fuel + 1, scopes, .binary left operator right => do
    let a ← evaluate fuel scopes left
    let b ← evaluate fuel scopes right
    liftAt operator (Operator.binary operator.kind a b)
  | fuel + 1, scopes, .logical left operator right => do
    let a ← evaluate fuel scopes left
    if Operator.shortCircuits operator.kind a then pure a else evaluate fuel scopes right
  | fuel + 1, scopes, .ternary condition thenBranch elseBranch => do
    let value ← evaluate fuel scopes condition
    if value.truthy then evaluate fuel scopes thenBranch else evaluate fuel scopes elseBranch
  | _ + 1, scopes, .variable ref => lookUp scopes ref.name
  | fuel + 1, scopes, .assign ref value => do
    let v ← evaluate fuel scopes value
    assign scopes ref.name v
    pure v
  | fuel + 1, scopes, .call callee paren arguments => do
    let function ← evaluate fuel scopes callee
    let given ← evaluateAll fuel scopes arguments
    call fuel function paren given
  | fuel + 1, scopes, .get object name => do
    let value ← evaluate fuel scopes object
    getProperty value name
  | fuel + 1, scopes, .set object name value => do
    match ← evaluate fuel scopes object with
    | .object identity _ =>
      let v ← evaluate fuel scopes value
      setField identity name v
      pure v
    | _ => failAt name .noFields
  | _ + 1, scopes, .lambda declaration => functionValue ⟨declaration, scopes, false⟩
  | _ + 1, scopes, .this ref => lookUp scopes ref.name
  | _ + 1, scopes, .super ref method => superMethod scopes ref method

/-- The values of expressions, from left to right. -/
def evaluateAll : Nat → Scopes → List Expr → Run (List (Value Scopes))
  | 0, _, _ => .outOfFuel
  | _ + 1, _, [] => pure []
  | fuel + 1, scopes, e :: rest => do
    let first ← evaluate fuel scopes e
    let others ← evaluateAll fuel scopes rest
    pure (first :: others)

/-- The value of a call. -/
def call : Nat → Value Scopes → Token → List (Value Scopes) → Run (Value Scopes)
  | 0, _, _, _ => .outOfFuel
  | _ + 1, .native native, paren, given => callNative paren native given
  | fuel + 1, .function _ closure, _, given => callClosure fuel closure given
  | fuel + 1, .classOf c, _, given => do
    let identity ← newObject
    let created := Value.object identity c
    match c.method? "init" with
    | none => pure created
    | some init =>
      let ready ← bindThis init created
      let _ ← callClosure fuel ready given
      pure created
  | _ + 1, _, paren, _ => failAt paren .notCallable

/-- The value of a call of a closure: its body runs in the scopes around its text and one more. -/
def callClosure : Nat → Closure Scopes → List (Value Scopes) → Run (Value Scopes)
  | 0, _, _ => .outOfFuel
  | fuel + 1, closure, given => do
    let scopes ← enterParams closure.declaration.params given (.empty :: closure.env)
    let completion ← executeAll fuel scopes closure.declaration.body
    answer closure completion

/-- Runs a statement within scopes.  Gives the scopes behind it, too. -/
def execute : Nat → Scopes → Stmt → Run (Completion Scopes × Scopes)
  | 0, _, _ => .outOfFuel
  | fuel + 1, scopes, .expression value => do
    let _ ← evaluate fuel scopes value
    pure (.normal, scopes)
  | fuel + 1, scopes, .value value => do
    let _ ← evaluate fuel scopes value
    pure (.normal, scopes)
  | fuel + 1, scopes, .varDecl name initializer => do
    let scopes ← announce name.lexeme .empty scopes
    let slot ← optional (evaluate fuel scopes) initializer
    settle scopes name slot
    pure (.normal, scopes)
  | fuel + 1, scopes, .block body => do
    let completion ← executeAll fuel (.empty :: scopes) body
    pure (completion, scopes)
  | fuel + 1, scopes, .ifElse condition thenBranch elseBranch => do
    let value ← evaluate fuel scopes condition
    if value.truthy then execute fuel scopes thenBranch
    else
      match elseBranch with
      | none => pure (.normal, scopes)
      | some branch => execute fuel scopes branch
  | fuel + 1, scopes, .whileLoop condition body => do
    let value ← evaluate fuel scopes condition
    if value.truthy then
      match (← execute fuel scopes body).1 with
      | .normal => execute fuel scopes (.whileLoop condition body)
      | .broke => pure (.normal, scopes)
      | .returned v => pure (.returned v, scopes)
    else
      pure (.normal, scopes)
  | _ + 1, scopes, .breakLoop _ => pure (.broke, scopes)
  | _ + 1, scopes, .funcDecl declaration => do
    let name := declaration.name.getD declaration.keyword
    let scopes ← announce name.lexeme .empty scopes
    let value ← functionValue ⟨declaration, scopes, false⟩
    settle scopes name (some value)
    pure (.normal, scopes)
  | _ + 1, scopes, .classDecl name superclass methods => do
    let scopes ← declareClass scopes name superclass methods
    pure (.normal, scopes)
  | fuel + 1, scopes, .returnValue _ value => do
    let result ← optional (evaluate fuel scopes) value
    pure (.returned (result.getD .nil), scopes)

/-- Runs statements in their order, each within the scopes behind the one before. -/
def executeAll : Nat → Scopes → List Stmt → Run (Completion Scopes)
  | 0, _, _ => .outOfFuel
  | _ + 1, _, [] => pure .normal
  | fuel + 1, scopes, s :: rest => do
    match ← execute fuel scopes s with
    | (.normal, scopes) => executeAll fuel scopes rest
    | (other, _) => pure other

end

/-- Runs the statements of a program, at top level.  The value of the last expression that hands one
    back is the value of the program. -/
def runAll (fuel : Nat) : List Stmt → Option (Value Scopes) → Run (Option (Value Scopes))
  | [], last => pure last
  | .value e :: rest, _ => do
    let value ← evaluate fuel [] e
    runAll fuel rest (some value)
  | s :: rest, last => do
    let _ ← execute fuel [] s
    runAll fuel rest last

/-! ## Sessions -/

/-- How a submission ended, as far as it is seen: with a value shown, with so many faults, or with an
    error. -/
inductive Outcome where
  | finished (shown : Option String)
  | rejected (faults : Nat)
  | aborted (error : RuntimeError)
  deriving DecidableEq

/-- The state between submissions. -/
structure Session where
  interactive : Bool
  state : State
  /-- The number of the next occurrence of a name. -/
  nextId : Nat

namespace Session

/-- The session before its first submission. -/
def start (interactive : Bool) (host : Host) : Session := ⟨interactive, .start host, 0⟩

/-- What is reported about a program that has been read: faults of its names only if it was read
    without a fault. -/
def faults (parsed : Parsed) : List Diagnostic :=
  if parsed.diagnostics.isEmpty then (resolve parsed.program).diagnostics else parsed.diagnostics

/-- Runs a submission, unless something is reported about it.  There is no answer if the fuel does not
    suffice. -/
def run (fuel : Nat) (source : String) (s : Session) : Option (Outcome × Session) :=
  let parsed := readProgram source s.interactive s.nextId
  let s := { s with nextId := parsed.nextId }
  if (faults parsed).isEmpty then
    match runAll fuel parsed.program none s.state with
    | .done value state => some (.finished (value.map Value.printed), { s with state := state })
    | .failed error state => some (.aborted error, { s with state := state })
    | .exhausted => none
  else
    some (.rejected (faults parsed).length, s)

/-- A submission without faults is run. -/
theorem run_of_faultless {fuel : Nat} {source : String} {s : Session} {parsed : Parsed}
    (hread : readProgram source s.interactive s.nextId = parsed) (hfaults : faults parsed = []) :
    s.run fuel source =
      match runAll fuel parsed.program none s.state with
      | .done value state =>
        some (.finished (value.map Value.printed), { s with nextId := parsed.nextId, state := state })
      | .failed error state =>
        some (.aborted error, { s with nextId := parsed.nextId, state := state })
      | .exhausted => none := by
  cases hread
  rw [run, hfaults]
  rfl

/-- Runs submissions, each with its fuel, one after the other.  Gives how each ended and what it left
    of the host, with all that has been printed. -/
def transcript : List (Nat × String) → Session → Option (List (Outcome × Host))
  | [], _ => some []
  | (fuel, source) :: rest, s => do
    let (outcome, s) ← s.run fuel source
    let others ← s.transcript rest
    some ((outcome, s.state.host) :: others)

end Session

end Lox.Lexical
