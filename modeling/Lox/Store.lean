import Lox.Action
import Lox.Fault
import Lox.Value

/-!
  The store: frames of variables and fields of instances.

  A frame maps the names declared in it to slots; a slot is empty until the variable has its first value.
  Frames and instances are numbered and never taken away, since a function or a value may still see them.
  The chain of frames that is visible somewhere is no part of the store: it is a list of numbers (`Env`), so
  that any number of chains share a frame.

  `slot?` is the view of the frames and `field?` that of the instances.  The lemmas say what each shows after
  a step (`slot?_put`, `slot?_push`, `field?_putField`), and that is all that is known of a store elsewhere.

  Each step on variables either fails and leaves the store as it is, or changes the one slot it is about.
  Declaring and assigning exclude each other: a frame must not have a name to declare it, and must have it to
  assign to it.
-/

namespace Lox

/-- Frames, fields and a supply of identities. -/
structure Store where
  /-- The frames: for every name declared in them its value, if it has one yet. -/
  frames : Array (Table (Option Value))
  /-- The fields of the instances. -/
  objects : Array (Table Value)
  /-- The next identity of a function or a class. -/
  nextIdentity : Nat

namespace Store

/-- A store with one frame, without names. -/
def start : Store := ⟨#[.empty], #[], 0⟩

/-- What a frame has for a name: nothing, an empty slot or a value. -/
def slot? (s : Store) (frame : Nat) (name : String) : Option (Option Value) :=
  s.frames[frame]?.bind (·.get? name)

/-- Gives a name of a frame a slot, whatever it had before. -/
def put (s : Store) (frame : Nat) (name : String) (slot : Option Value) : Store :=
  { s with frames := s.frames.modify frame (·.insert name slot) }

/-- The fields of an instance. -/
def field? (s : Store) (object : Nat) (name : String) : Option Value :=
  s.objects[object]?.bind (·.get? name)

/-- Gives a field of an instance a value. -/
def putField (s : Store) (object : Nat) (name : String) (value : Value) : Store :=
  { s with objects := s.objects.modify object (·.insert name value) }

/-- A change of one slot shows in that slot and in no other. -/
theorem slot?_put (s : Store) {frame : Nat} (h : frame < s.frames.size) (name : String)
    (slot : Option Value) (frame' : Nat) (name' : String) :
    (s.put frame name slot).slot? frame' name' =
      if frame = frame' ∧ name = name' then some slot else s.slot? frame' name' := by
  simp only [slot?, put, Array.getElem?_modify]
  by_cases hf : frame = frame'
  · subst hf
    by_cases hn : name = name' <;> simp [Array.getElem?_eq_getElem h, Table.get?_insert, hn]
  · simp [hf]

/-- A change of one field shows in that field and in no other. -/
theorem field?_putField (s : Store) {object : Nat} (h : object < s.objects.size) (name : String)
    (value : Value) (object' : Nat) (name' : String) :
    (s.putField object name value).field? object' name' =
      if object = object' ∧ name = name' then some value else s.field? object' name' := by
  simp only [field?, putField, Array.getElem?_modify]
  by_cases ho : object = object'
  · subst ho
    by_cases hn : name = name' <;> simp [Array.getElem?_eq_getElem h, Table.get?_insert, hn]
  · simp [ho]

/-! ## What a store makes -/

/-- Puts a frame inside a chain. -/
def push (env : Env) (frame : Table (Option Value)) (s : Store) : Env × Store :=
  let number := s.frames.size
  (env.extend number, { s with frames := s.frames.push frame })

/-- A frame that is put inside a chain shows its own names, the others show theirs. -/
theorem slot?_push (s : Store) (env : Env) (frame : Table (Option Value)) (f : Nat) (x : String) :
    (s.push env frame).2.slot? f x = if f = s.frames.size then frame.get? x else s.slot? f x := by
  simp only [push, slot?, Array.getElem?_push]
  split <;> rfl

/-- A new instance without fields; gives its number. -/
def newObject (s : Store) : Nat × Store :=
  let number := s.objects.size
  (number, { s with objects := s.objects.push .empty })

/-- An identity that nothing has had before. -/
def newIdentity (s : Store) : Nat × Store :=
  (s.nextIdentity, { s with nextIdentity := s.nextIdentity + 1 })

/-- A store whose one frame, the globals, has the native functions. -/
def initial : Store :=
  Native.all.foldl (fun s n => s.put 0 n.name (some (.native n))) start

end Store

/-! ## Steps on variables -/

/-- A step on the store, which may fail. -/
abbrev StoreStep := Action Store RuntimeFault

namespace Store

/-- Declares a name in a frame, with a value or without.  A frame has a name only once. -/
def define (frame : Nat) (name : String) (slot : Option Value) : StoreStep Unit := fun s =>
  if (s.slot? frame name).isSome then .failed .alreadyDefined s
  else .done () (s.put frame name slot)

/-- The value that a frame has for a name. -/
def get (frame : Nat) (name : String) : StoreStep Value := fun s =>
  match s.slot? frame name with
  | some (some value) => .done value s
  | some none => .failed .notInitialized s
  | none => .failed .undefinedVariable s

/-- Gives a declared name of a frame a value. -/
def assign (frame : Nat) (name : String) (value : Value) : StoreStep Unit := fun s =>
  if (s.slot? frame name).isSome then .done () (s.put frame name (some value))
  else .failed .undefinedVariable s

/-- The number of the frame that lies a distance outward. -/
def ancestor (env : Env) (distance : Nat) : StoreStep Nat :=
  match env.ancestor? distance with
  | some frame => pure frame
  | none => .fail .noEnclosingScope

/-- The value of a name in the frame that lies a distance outward. -/
def getAt (env : Env) (distance : Nat) (name : String) : StoreStep Value := do
  let frame ← ancestor env distance
  get frame name

/-- Gives a declared name in the frame that lies a distance outward a value. -/
def assignAt (env : Env) (distance : Nat) (name : String) (value : Value) : StoreStep Unit := do
  let frame ← ancestor env distance
  assign frame name value

end Store

end Lox
