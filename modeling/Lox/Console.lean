import Lox.Files
import Lox.Session
import Lox.Syntax.Outline

/-!
  The command line.

  Three tasks: to show the tokens of a file, to show its outline, and to run it; without a file, the last
  one takes its submissions line by line from the standard input, from which the programs read as well.

  A command is a task with a file and the word whether a log is kept.  What carrying it out leaves behind
  is computed as a report (`Console.carryOut`): the texts on the two outputs and the exit code.  It depends
  on what lies outside through parameters only, namely the files that can be read, the host, the fuel, and
  the way in which numbers are written into JSON documents.

  * **Exit codes.**  65 if anything was reported before running, 70 if an error ended the program, otherwise
    0; and 1 if the file cannot be read or the command cannot be carried out at all.
  * **Interaction** (`interact`).  One line after the other is prompted for, submitted and answered.  A bound
    on the number of lines takes the place of an endless loop.  Where it is called the bound is more than
    the number of bytes, so it is never reached.

  This is the command line as far as it is one's own to say.  How a command is spelled as arguments is a
  convention, and only a thin layer around it: `Command.ofArgs?` takes the arguments that mean a command,
  and whatever else is given means none.
-/

namespace Lox

/-! ## Commands -/

/-- What is to be done with a file. -/
inductive Task where
  | tokenize (asJson : Bool)
  | parse
  | run
  deriving DecidableEq, Repr

/-- A command line. -/
structure Command where
  task : Task
  file : Option String
  /-- Whether a log is kept. -/
  log : Bool
  deriving DecidableEq, Repr

/-! ## What can go wrong -/

/-- Why a command cannot be carried out. -/
inductive ConsoleFault where
  | noFile
  | file (name : String) (fault : FileFault)
  | notText (name : String) (fault : Text.Utf8Fault)
  | brokenLine
  deriving DecidableEq, Repr

namespace ConsoleFault

/-- The fault in words. -/
def message : ConsoleFault → String
  | noFile => "No input filepath was provided."
  | file name (.notOpened _) => "Failed to open file " ++ Text.quotedName name
  | file name (.notRead _) => "Failed to read file " ++ Text.quotedName name
  | notText name _ => "File " ++ Text.quotedName name ++ " is not valid UTF-8"
  | brokenLine => "Failed to read from stdin"

/-- What lies behind the fault. -/
def cause? : ConsoleFault → Option String
  | file _ (.notOpened cause) | file _ (.notRead cause) => some cause.text
  | notText _ fault => some fault.message
  | brokenLine => some "stream did not contain valid UTF-8"
  | _ => none

/-- The fault and its cause. -/
def text (fault : ConsoleFault) : String :=
  "Error: " ++ fault.message ++ (fault.cause?.elim "" ("\n\nCaused by:\n    " ++ ·)) ++ "\n"

end ConsoleFault

/-! ## Reports -/

/-- What a command leaves behind. -/
structure Report where
  stdout : String
  stderr : String
  /-- The exit code. -/
  code : Nat
  /-- Whether a log was begun. -/
  log : Bool
  deriving DecidableEq, Repr

namespace Console

/-- The exit code after a rejected program. -/
def rejectedCode : Nat := 65

/-- The exit code after a program that an error ended. -/
def abortedCode : Nat := 70

/-- Lines, each with its end. -/
def linesText (lines : List String) : String := String.join (lines.map (· ++ "\n"))

/-- Diagnostics, each on its line. -/
def diagnosticsText (ds : List Diagnostic) : String := linesText (ds.map Diagnostic.text)

/-- The exit code that a verdict means. -/
def codeOf : Verdict → Nat
  | .finished _ => 0
  | .rejected _ => rejectedCode
  | .aborted _ => abortedCode

/-- The report of a command that shows something of a program. -/
def shown {α : Type} (answer : Answered α) (text : α → String) : Report where
  stdout := text answer.result
  stderr := diagnosticsText answer.diagnostics
  code := if answer.session.anyRejected then rejectedCode else 0
  log := false

/-- The tokens of a program, one on each line; numbers of JSON documents are written as is said. -/
def tokensText (numberText : Float → String) (asJson : Bool) (tokens : List Token) : String :=
  linesText (tokens.map fun t => if asJson then t.json numberText else t.trace)

/-- Carries out a task on a source.  Programs read from the host. -/
def onSource (numberText : Float → String) (fuel : Nat) (host : Host) (task : Task) (source : String) :
    Option Report :=
  let session := Session.start false host
  match task with
  | .tokenize asJson => some (shown (session.tokenize source) (tokensText numberText asJson))
  | .parse => some (shown (session.parse source) outlineText)
  | .run => (session.run fuel source).map fun answer =>
    ⟨answer.session.machine.host.output, diagnosticsText answer.diagnostics,
      codeOf answer.result, false⟩

/-- The report of a command that could not be carried out. -/
def failure (stdout stderr : String) (fault : ConsoleFault) : Report :=
  ⟨stdout, stderr ++ fault.text, 1, false⟩

/-! ## The interactive session -/

/-- Prints a text. -/
def say (text : String) (s : Session) : Session :=
  { s with machine := { s.machine with host := s.machine.host.print text } }

/-- Takes a line off the input. -/
def dropLine (s : Session) : Session :=
  { s with machine := { s.machine with host := s.machine.host.skipLine } }

/-- Prints the value of a submission, if it has one. -/
def echo (verdict : Verdict) (s : Session) : Session :=
  match verdict with
  | .finished (some value) => say (value.printed ++ "\n") s
  | _ => s

/-- Prompts and takes lines as submissions until the input is over.  Each takes at least one byte, so
    there are no more lines than bytes.  Errors end nothing. -/
def interact (fuel : Nat) : Nat → String → Session → Option Report
  | 0, _, _ => none
  | lines + 1, stderr, s =>
    let s := say "> " s
    match (Host.splitLine s.machine.host.input).1 with
    | [] => some ⟨(say "\n" s).machine.host.output, stderr, 0, false⟩
    | line =>
      match Text.decode line with
      | .error _ => some (failure s.machine.host.output stderr .brokenLine)
      | .ok source =>
        match (dropLine s).run fuel source with
        | none => none
        | some answer =>
          let s := echo answer.result answer.session
          interact fuel lines (stderr ++ diagnosticsText answer.diagnostics) s.clearFlags

/-! ## Carrying out commands -/

/-- The source that a file holds. -/
def sourceOf (read : String → Except FileFault (List UInt8)) (file : String) :
    Except ConsoleFault String :=
  match read file with
  | .error fault => .error (.file file fault)
  | .ok bytes => (Text.decode bytes).mapError (.notText file)

/-- Carries out a task, on a file or without one; there is no report if the fuel does not suffice. -/
def perform (numberText : Float → String) (fuel : Nat) (read : String → Except FileFault (List UInt8))
    (host : Host) : Task → Option String → Option Report
  | .run, none => interact fuel (host.input.length + 1) "" (.start true host)
  | _, none => some (failure "" "" .noFile)
  | task, some file =>
    match sourceOf read file with
    | .error fault => some (failure "" "" fault)
    | .ok source => onSource numberText fuel host task source

/-- Carries out a command. -/
def carryOut (numberText : Float → String) (fuel : Nat) (read : String → Except FileFault (List UInt8))
    (host : Host) (command : Command) : Option Report :=
  (perform numberText fuel read host command.task command.file).map ({ · with log := command.log })

end Console

/-! ## Arguments -/

/-- The command with a task and what is left of its arguments: one file, or none. -/
def Command.ofFiles? (task : Task) (log : Bool) : List String → Option Command
  | [] => some ⟨task, none, log⟩
  | [file] => if file.startsWith "-" then none else some ⟨task, some file, log⟩
  | _ => none

/-- The command that arguments mean, where they mean one: a task, its options and a file. -/
def Command.ofArgs? (args : List String) : Option Command :=
  let log := args.contains "--log"
  match args.erase "--log" with
  | "tokenize" :: rest => ofFiles? (.tokenize (rest.contains "--json")) log (rest.erase "--json")
  | "parse" :: rest => ofFiles? .parse log rest
  | "run" :: rest => ofFiles? .run log rest
  | _ => none

/-- The report of a command line, if its arguments mean a command. -/
def Console.report (fuel : Nat) (args : List String) (read : String → Except FileFault (List UInt8))
    (host : Host) : Option Report :=
  (Command.ofArgs? args).bind (carryOut Number.json fuel read host)

end Lox
