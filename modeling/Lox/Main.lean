import Lox.Console
import Std.Time.DateTime.Timestamp

/-!
  The program.

  This is the only module that does anything: it takes the arguments, reads files and the standard input,
  and writes a report out.  All it decides itself is how the system's errors are put into words and when the
  clock is read.

  The standard input is read to its end before anything runs, and what is printed is written when all is
  over; nothing that a program can observe depends on this.  The clock that programs see stands still at the
  time at which the command was given.  The fuel is more than a machine can use up.
-/

namespace Lox.Main

/-- What the system says in an error. -/
def cause (error : IO.Error) : SystemFault :=
  match error with
  | .noFileOrDirectory _ number details
  | .interrupted _ number details
  | .alreadyExists _ number details
  | .invalidArgument _ number details
  | .permissionDenied _ number details
  | .resourceExhausted _ number details
  | .inappropriateType _ number details
  | .noSuchThing _ number details
  | .resourceBusy number details
  | .resourceVanished number details
  | .unsupportedOperation number details
  | .hardwareFault number details
  | .unsatisfiedConstraints number details
  | .illegalOperation number details
  | .protocolError number details
  | .timeExpired number details
  | .otherError number details => ⟨details, number.toNat⟩
  | .unexpectedEof | .userError _ => ⟨"Input/output error", 5⟩

/-- The bytes that are left in an open file. -/
def rest (handle : IO.FS.Handle) : IO (Except FileFault (List UInt8)) := do
  try
    return .ok (← handle.readBinToEnd).toList
  catch error =>
    return .error (.notRead (cause error))

/-- The bytes of a file. -/
def bytesOf (file : String) : IO (Except FileFault (List UInt8)) := do
  try
    rest (← IO.FS.Handle.mk file .read)
  catch error =>
    return .error (.notOpened (cause error))

/-- The bytes of the standard input, for a command that runs programs. -/
def inputOf (command : Command) : IO (List UInt8) := do
  if command.task = .run then
    return (← (← IO.getStdin).readBinToEnd).toList
  else
    return []

/-- More fuel than any run can use up. -/
def fuel : Nat := 4000000000000000000

/-- The present time, in milliseconds. -/
def now : IO Int := do
  return (← Std.Time.Timestamp.now).toMillisecondsSinceUnixEpoch.val

/-- What is said where the arguments mean no command. -/
def usage : String := "Usage: tokenize [--json] [file], parse [file] or run [file], with --log anywhere"

end Lox.Main

open Lox in
/-- Carries out the command that the arguments mean. -/
def main (args : List String) : IO UInt32 := do
  let some command := Command.ofArgs? args
    | IO.eprintln Main.usage
      return 2
  let bytes ← (command.file.map Main.bytesOf).getD (pure (.ok []))
  let input ← Main.inputOf command
  let time ← Main.now
  let host : Host := ⟨input, #[], .whole, fun _ => time, 0⟩
  match Console.report Main.fuel args (fun _ => bytes) host with
  | none => return 1
  | some report =>
    if report.log then
      IO.FS.writeFile "app.log" ""
    IO.print report.stdout
    IO.eprint report.stderr
    return report.code.toUInt32
