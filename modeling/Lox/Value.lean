import Lox.Syntax
import Lox.Table

/-!
  Values.

  Numbers, strings and truth values are what they are.  Functions, classes and instances have an identity, by
  which they are compared.  The fields of an instance and the variables of a function are not part of the
  value; they are kept in a store, to which the value holds the numbers of places.  So copies of an instance
  share its fields, and a value never changes.

  * **Functions** (`Closure`) are a declaration with the chain of frames that was current where it was made.
  * **Classes** (`Class`) hold their own methods and those of all classes they extend, nearest first.  The
    superclass is looked at once, when the class is declared; `method?` takes the nearest method.
  * **Numbers** are equal as doubles are, so that one that is no number is not equal to itself.

  The types are open in what it is that a function sees: a chain of frames, unless something else is said.
  The reference semantics puts scopes in this place and shares everything else.
-/

namespace Lox

/-- The functions that every program can call. -/
inductive Native where
  | clock | input | print
  deriving DecidableEq, Repr

namespace Native

/-- All of them. -/
def all : List Native := [clock, input, print]

/-- The name under which it is called. -/
def name : Native → String
  | clock => "clock"
  | input => "input"
  | print => "print"

/-- How many arguments it is meant to get. -/
def arity : Native → Nat
  | clock | input => 0
  | print => 1

end Native

/-- A chain of frames of variables: the innermost one and those around it, up to the globals. -/
structure Env where
  /-- The number of the innermost frame. -/
  frame : Nat
  /-- The numbers of the frames around it, going outward. -/
  outer : List Nat
  deriving DecidableEq, Repr

namespace Env

/-- The chain of the globals alone. -/
def global : Env := ⟨0, []⟩

/-- The chain with one more frame inside. -/
def extend (env : Env) (frame : Nat) : Env := ⟨frame, env.frame :: env.outer⟩

/-- The number of the frame that lies a distance outward. -/
def ancestor? (env : Env) (distance : Nat) : Option Nat := (env.frame :: env.outer)[distance]?

/-- The chain without its innermost frame. -/
def enclosing? (env : Env) : Option Env :=
  match env.outer with
  | [] => none
  | frame :: outer => some ⟨frame, outer⟩

end Env

/-- A function together with the variables it can see. -/
structure Closure (ρ : Type := Env) where
  declaration : FunctionDecl
  env : ρ
  /-- Whether a call gives back the instance instead of what the body returns. -/
  isInitializer : Bool

/-- One class of a chain of superclasses. -/
structure ClassBody (ρ : Type := Env) where
  /-- Tells the class from all others. -/
  identity : Nat
  name : String
  methods : Table (Closure ρ)

/-- A class and the classes it extends, nearest first. -/
structure Class (ρ : Type := Env) where
  own : ClassBody ρ
  ancestors : List (ClassBody ρ)

variable {ρ : Type}

namespace Class

/-- The name of the class. -/
def name (c : Class ρ) : String := c.own.name

/-- The classes in which methods are looked up, in order. -/
def chain (c : Class ρ) : List (ClassBody ρ) := c.own :: c.ancestors

/-- The method of that name of the nearest class that has one. -/
def method? (c : Class ρ) (name : String) : Option (Closure ρ) :=
  c.chain.findSome? (·.methods.get? name)

end Class

/-- What expressions stand for. -/
inductive Value (ρ : Type := Env) where
  | nil
  | bool (value : Bool)
  | number (value : Float)
  | string (value : String)
  | native (native : Native)
  | function (identity : Nat) (closure : Closure ρ)
  | classOf (c : Class ρ)
  | object (identity : Nat) (c : Class ρ)

namespace Value

instance : Inhabited (Value ρ) := ⟨nil⟩

/-- The value of a constant. -/
def ofLiteral : Literal → Value ρ
  | .nil => nil
  | .bool b => bool b
  | .number x => number x
  | .string s => string s

/-- What the value is called in conditions: only `nil` and `false` are not true. -/
def truthy : Value ρ → Bool
  | nil => false
  | bool b => b
  | _ => true

/-- Whether two values are the same: numbers by their value, so that no-number differs from itself,
    whatever has an identity by that. -/
def same : Value ρ → Value ρ → Bool
  | nil, nil => true
  | bool a, bool b => a == b
  | number a, number b => a == b
  | string a, string b => a == b
  | native a, native b => decide (a = b)
  | function a _, function b _ => a == b
  | classOf a, classOf b => a.own.identity == b.own.identity
  | object a _, object b _ => a == b
  | _, _ => false

/-- The value as text. -/
def display : Value ρ → String
  | nil => "nil"
  | bool b => if b then "true" else "false"
  | number x => Number.text x
  | string s => s
  | native n => "<native fn " ++ n.name ++ ">"
  | function _ closure => "<fn " ++ closure.declaration.displayName ++ ">"
  | classOf c => c.name
  | object _ c => c.name ++ " instance"

/-- The value as it is printed: as text, but `nil` begins with a capital. -/
def printed : Value ρ → String
  | nil => "Nil"
  | v => v.display

/-- How many arguments a call is meant to have, of what can be called.  A class takes those of its
    initializer. -/
def arity? : Value ρ → Option Nat
  | native n => some n.arity
  | function _ closure => some closure.declaration.params.length
  | classOf c => some ((c.method? "init").elim 0 fun init => init.declaration.params.length)
  | _ => none

end Value

end Lox
