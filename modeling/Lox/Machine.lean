import Lox.Host
import Lox.Scope
import Lox.Store

/-!
  The machine that programs run on.

  It holds the store, the chain of frames that is current, the distances of all occurrences of names and the
  host.  Of these only the first and the last keep what a program does: the chain is put back by whoever
  changes it, and the distances are only added to between two programs (`learn`).

  The functions here are the single steps of the evaluator.  A step that fails does so at a token, so steps
  of the store, whose faults have no place, are done at the token that asked for them (`atToken`).

  * **Names** (`lookUp`, `assign`).  With a distance, in the frame that lies as far outward; without one, in
    the globals.  Nothing else is ever searched, so what a name means does not depend on what other
    frames declare.
  * **Properties** (`getProperty`, `setField`, `superMethod`).  A field hides a method of the same name.  A
    method is bound to its instance when it is read, in a frame of its own with `this` in it (`bindThis`).
  * **Classes** (`declareClass`).  The name is declared before the methods are made, so that they can use it,
    and has its value after.
  * **Functions of the host** (`nativeAnswer`).  They are the only steps that read or change the host.
-/

namespace Lox

/-- The state of a run. -/
structure Machine where
  store : Store
  /-- The frames that are seen from the present place. -/
  env : Env
  resolution : Resolution
  host : Host

/-- A step of a run. -/
abbrev Eval := Action Machine RuntimeError

namespace Machine

/-- The machine before its first program. -/
def start (host : Host) : Machine := ⟨.initial, .global, ∅, host⟩

/-- Adds distances of occurrences; a new one takes the place of an old one. -/
def learn (m : Machine) (found : Resolution) : Machine :=
  { m with resolution := m.resolution ∪ found }

/-- Fails at a token. -/
def failAt {α : Type} (token : Token) (fault : RuntimeFault) : Eval α := .fail ⟨token, fault⟩

/-- Does a step on the store, whose failure is one at the token. -/
def atToken {α : Type} (token : Token) (step : StoreStep α) : Eval α
  | ⟨store, env, found, host⟩ =>
    match step store with
    | .done a store => .done a ⟨store, env, found, host⟩
    | .failed fault store => .failed ⟨token, fault⟩ ⟨store, env, found, host⟩
    | .exhausted => .exhausted

/-- Has the store make something. -/
def make {α : Type} (step : Store → α × Store) : Eval α
  | ⟨store, env, found, host⟩ =>
    let (a, store) := step store
    .done a ⟨store, env, found, host⟩

/-- Does a step that gives a value or a fault, which is then one at the token. -/
def liftAt {α : Type} (token : Token) : Except RuntimeFault α → Eval α
  | .ok a => pure a
  | .error fault => failAt token fault

/-- Runs with another chain of frames current, and goes back to the present one afterwards, also
    after a failure. -/
@[inline] def within {α : Type} (env : Env) (x : Eval α) : Eval α :=
  .keeping Machine.env (fun e m => { m with env := e }) do
    .update fun m => { m with env := env }
    x

/-- The recorded distance of an occurrence. -/
def distance? (ref : Ref) : Eval (Option Nat) := .read (·.resolution[ref.id]?)

/-- The value of an occurrence of a name: at its distance, or among the globals if it has none. -/
def lookUp (ref : Ref) : Eval Value := do
  let env ← .read Machine.env
  match ← distance? ref with
  | some distance => atToken ref.name (Store.getAt env distance ref.name.lexeme)
  | none => atToken ref.name (Store.get Env.global.frame ref.name.lexeme)

/-- Gives the variable that an occurrence means a value. -/
def assign (ref : Ref) (value : Value) : Eval Unit := do
  let env ← .read Machine.env
  match ← distance? ref with
  | some distance => atToken ref.name (Store.assignAt env distance ref.name.lexeme value)
  | none => atToken ref.name (Store.assign Env.global.frame ref.name.lexeme value)

/-- Declares a name in the current frame. -/
def define (name : Token) (slot : Option Value) : Eval Unit := do
  let env ← .read Machine.env
  atToken name (Store.define env.frame name.lexeme slot)

/-! ## Functions and instances

  What a function sees is the chain of frames at the place where it is made.  To bind a method puts one more
  frame inside that chain, which holds `this`; to declare a subclass puts one around its methods, which holds
  `super`. -/

/-- The function value of a closure, unlike any other. -/
def functionValue (closure : Closure) : Eval Value := do
  let identity ← make Store.newIdentity
  pure (.function identity closure)

/-- The method with `this` bound to an instance, in a frame of its own around the method's. -/
def bindThis (method : Closure) (this : Value) : Eval Closure := do
  let env ← make (Store.push method.env (Table.empty.insert "this" (some this)))
  pure { method with env := env }

/-- A property of an instance: a field, or else a method, which is bound to the instance.  The
    initializer is no property. -/
def getProperty (value : Value) (name : Token) : Eval Value :=
  match value with
  | .object identity c => do
    match ← .read (·.store.field? identity name.lexeme) with
    | some field => pure field
    | none =>
      match c.method? name.lexeme with
      | none => failAt name .undefinedProperty
      | some method =>
        if name.lexeme = "init" then failAt name .directInitializer
        else functionValue (← bindThis method value)
  | _ => failAt name .noProperties

/-- Gives a field of an instance a value. -/
def setField (object : Nat) (name : Token) (value : Value) : Eval Unit :=
  .update fun m => { m with store := m.store.putField object name.lexeme value }

/-- The method that `super` names: looked up in the superclass of the class whose text holds it, and
    bound to the instance that runs. -/
def superMethod (ref : Ref) (method : Token) : Eval Value := do
  let env ← .read Machine.env
  match ← distance? ref with
  | none => failAt ref.name .superOutsideClass
  | some distance =>
    match ← atToken ref.name (Store.getAt env distance ref.name.lexeme) with
    | .classOf superclass =>
      let thisName := Token.named "this" ref.name.line
      match ← atToken thisName (Store.getAt env (distance - 1) "this") with
      | .object identity c =>
        match superclass.method? method.lexeme with
        | some found => functionValue (← bindThis found (.object identity c))
        | none => failAt method .undefinedProperty
      | _ => failAt ref.name .thisNotInstance
    | _ => failAt ref.name .superclassNotClass

/-- Declares the parameters of a function in a frame.  Arguments without a parameter are dropped,
    parameters without an argument are not declared. -/
def defineParams (frame : Nat) : List Token → List Value → Eval Unit
  | param :: params, value :: values => do
    atToken param (Store.define frame param.lexeme (some value))
    defineParams frame params values
  | _, _ => pure ()

/-- The class that a class extends. -/
def superclassOf (ref : Ref) : Eval Class := do
  match ← lookUp ref with
  | .classOf c => pure c
  | _ => failAt ref.name .superclassNotClass

/-- The methods of a class, all with the same variables around them; of two with one name the later
    counts. -/
def methodTable {ρ : Type} (methods : List FunctionDecl) (env : ρ) : Table (Closure ρ) :=
  methods.foldl (fun table d => table.insert d.displayName ⟨d, env, d.isInitializer⟩) .empty

/-- The variables around the methods of a class: those of the class, and a frame with `super` if it
    extends another. -/
def aroundMethods (env : Env) : Option Class → Eval Env
  | none => pure env
  | some c => make (Store.push env (Table.empty.insert "super" (some (.classOf c))))

/-- Declares a class.  The name is there, without a value, before the class is made; a frame with
    `super` lies around the methods if the class extends another. -/
def declareClass (name : Token) (superclass : Option Ref) (methods : List FunctionDecl) :
    Eval Unit := do
  let parent ← superclass.elim (pure none) fun ref => some <$> superclassOf ref
  define name none
  let env ← .read Machine.env
  let around ← aroundMethods env parent
  let identity ← make Store.newIdentity
  let own : ClassBody := ⟨identity, name.lexeme, methodTable methods around⟩
  atToken name (Store.assign env.frame name.lexeme (.classOf ⟨own, parent.elim [] Class.chain⟩))

/-! ## Native functions -/

/-- What a call of a native function gives, and the host behind it. -/
def nativeAnswer {ρ : Type} (given : List (Value ρ)) (host : Host) :
    Native → Except RuntimeFault (Value ρ) × Host
  | .clock => (.ok (.number host.time), host.tick)
  | .input =>
    match Text.decode host.line with
    | .ok text => (.ok (.string text), host.skipLine)
    | .error _ => (.error .unreadableInput, host.skipLine)
  | .print =>
    let text := (given.headD .nil).printed ++ "\n"
    match host.refusal? with
    | none => (.ok .nil, host.print text)
    | some refusal => (.error (.refusedOutput refusal.cause), host.print (refusal.front text))

/-- Calls a native function; what goes wrong does so at the token. -/
def callNative (token : Token) (native : Native) (given : List Value) : Eval Value
  | ⟨store, env, found, host⟩ =>
    match nativeAnswer given host native with
    | (.ok value, host) => .done value ⟨store, env, found, host⟩
    | (.error fault, host) => .failed ⟨token, fault⟩ ⟨store, env, found, host⟩

end Machine

end Lox
