/-!
  Files, and the names that lead to them.

  A name is a walk through directories, whose steps stand between slashes.  It begins where the command is
  given, or at the root if the name begins with a slash.  An empty step and a dot stay where they are, two
  dots leave a directory, and every other step goes to what it names.

  Steps are taken from directories only, and the first one that cannot be taken is the fault: a file in the
  middle of a name is no directory, even if the next step only stays.  A name may be too long, as a whole or
  in one of its steps.  What is found at the end must be a file to be read.

  The tree of files is given as the list of its entries with their places (`Files`), so that reading a file
  is a function of the list and the name.  The command line takes no more than a function from names to
  bytes or faults, of which `Files.read` is one.
-/

namespace Lox

/-! ## What can go wrong -/

/-- What the system says when it refuses something, and the number of it. -/
structure SystemFault where
  details : String
  number : Nat
  deriving DecidableEq, Repr

namespace SystemFault

/-- Nothing is there. -/
def missing : SystemFault := ⟨"No such file or directory", 2⟩

/-- A step from something that is not a directory. -/
def notDirectory : SystemFault := ⟨"Not a directory", 20⟩

/-- A directory, where bytes are wanted. -/
def isDirectory : SystemFault := ⟨"Is a directory", 21⟩

/-- A name beyond the limits. -/
def longName : SystemFault := ⟨"File name too long", 36⟩

/-- The fault in words. -/
def text (fault : SystemFault) : String :=
  fault.details ++ " (os error " ++ toString fault.number ++ ")"

end SystemFault

/-- Why the bytes of a file cannot be had. -/
inductive FileFault where
  | notOpened (cause : SystemFault)
  | notRead (cause : SystemFault)
  deriving DecidableEq, Repr

/-! ## Places -/

/-- What stands at a place. -/
inductive Entry where
  | file (bytes : List UInt8)
  | directory
  deriving DecidableEq, Repr

/-- A place, by the steps that lead to it from the root. -/
abbrev Location := List String

/-- Files in their directories. -/
structure Files where
  /-- The directory in which the command is given. -/
  here : Location
  /-- What stands where.  Directories that hold something need not be listed. -/
  entries : List (Location × Entry)
  deriving DecidableEq, Repr

namespace Files

/-- Whether something lies at a place or behind it. -/
def leads (files : Files) (place : Location) : Bool :=
  place.isPrefixOf files.here || files.entries.any fun entry => place.isPrefixOf entry.1

/-- What stands at a place. -/
def at? (files : Files) (place : Location) : Option Entry :=
  match files.entries.lookup place with
  | some entry => some entry
  | none => if files.leads place then some .directory else none

/-! ## Walks -/

/-- The most bytes that a step can have. -/
def stepLimit : Nat := 255

/-- The most bytes that a name can have. -/
def nameLimit : Nat := 4095

/-- The steps of a name behind a part of its first step, which has its last character first. -/
def cut (step : List Char) : List Char → List String
  | [] => [String.ofList step.reverse]
  | c :: rest =>
    if c = '/' then String.ofList step.reverse :: cut [] rest
    else cut (c :: step) rest

/-- The steps of a name. -/
def steps (name : String) : List String := cut [] name.toList

/-- Takes steps from a place. -/
def walk (files : Files) (place : Location) : List String → Except SystemFault Entry
  | [] =>
    match files.at? place with
    | some entry => .ok entry
    | none => .error .missing
  | step :: rest =>
    match files.at? place with
    | none => .error .missing
    | some (.file _) => .error .notDirectory
    | some .directory =>
      if step = "" ∨ step = "." then files.walk place rest
      else if step = ".." then files.walk place.dropLast rest
      else if stepLimit < step.utf8ByteSize then .error .longName
      else files.walk (place ++ [step]) rest

/-- What a name leads to. -/
def find (files : Files) (name : String) : Except SystemFault Entry :=
  if name = "" then .error .missing
  else if nameLimit < name.utf8ByteSize then .error .longName
  else if name.toList.head? = some '/' then files.walk [] (steps name)
  else files.walk files.here (steps name)

/-- The bytes of the file that a name leads to.  A directory can be opened, but not read. -/
def read (files : Files) (name : String) : Except FileFault (List UInt8) :=
  match files.find name with
  | .error fault => .error (.notOpened fault)
  | .ok .directory => .error (.notRead .isDirectory)
  | .ok (.file bytes) => .ok bytes

end Files

end Lox
