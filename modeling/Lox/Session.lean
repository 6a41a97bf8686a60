import Lox.Eval
import Lox.Grammar.Program

/-!
  Sessions: submissions one after the other, over the same globals.

  A submission is read, parsed and matched with its declarations before any of it runs; if anything is
  reported on the way, none of it runs.  So there are three verdicts: it is rejected, it is ended by an error,
  or it is finished, in an interactive session perhaps with a value.

  What a session keeps between submissions is the machine, the number for the next occurrence of a name,
  which is never given out twice, and two flags.  They tell whether faults were reported, or a submission was
  ended by an error, since they were last cleared; only `clearFlags` takes them back.

  To show the tokens or the statements of a source is answered in the same way (`Answered`): with a result,
  what is reported, and the session behind it.  A run that has not enough fuel has no answer at all.
-/

namespace Lox

/-- The program that a source holds, and all diagnostics of reading it.  `firstId` is the number of
    its first occurrence of a name. -/
def readProgram (source : String) (interactive : Bool) (firstId : Nat) : Parsed :=
  let found := items source
  let parsed := Grammar.parse (tokensOf found) interactive firstId
  { parsed with diagnostics := lexicalDiagnostics found ++ parsed.diagnostics }

/-- How a submission ended. -/
inductive Verdict where
  /-- It ran to its end; the value is that of a last expression which hands one back. -/
  | finished (value : Option Value)
  /-- So many faults were reported, and it did not run. -/
  | rejected (faults : Nat)
  /-- An error ended it. -/
  | aborted (error : RuntimeError)

namespace Verdict

/-- Why nothing ran, in words. -/
def rejectionText (faults : Nat) : String :=
  toString faults ++ " error(s) reported, program not executed"

end Verdict

/-- The state between submissions. -/
structure Session where
  /-- Whether the last expression of a submission may lack its semicolon and hands back its value. -/
  interactive : Bool
  machine : Machine
  /-- The number of the next occurrence of a name. -/
  nextId : Nat
  /-- Whether reading reported a fault since the flags were cleared. -/
  anyRejected : Bool
  /-- Whether an error ended a submission since the flags were cleared. -/
  anyAborted : Bool

/-- What a session answers. -/
structure Answered (α : Type) where
  result : α
  diagnostics : List Diagnostic
  session : Session

namespace Session

/-- The session before its first submission. -/
def start (interactive : Bool) (host : Host) : Session :=
  ⟨interactive, .start host, 0, false, false⟩

/-- Clears the flags. -/
def clearFlags (s : Session) : Session := { s with anyRejected := false, anyAborted := false }

/-- The tokens of a source. -/
def tokenize (source : String) (s : Session) : Answered (List Token) :=
  let found := items source
  let diagnostics := lexicalDiagnostics found
  ⟨tokensOf found, diagnostics, { s with anyRejected := s.anyRejected || !diagnostics.isEmpty }⟩

/-- The program that a source holds, and all diagnostics of reading it. -/
def read (source : String) (s : Session) : Parsed := readProgram source s.interactive s.nextId

/-- The program that a source holds. -/
def parse (source : String) (s : Session) : Answered (List Stmt) :=
  let parsed := s.read source
  let failed := !parsed.diagnostics.isEmpty
  ⟨parsed.program, parsed.diagnostics,
    { s with nextId := parsed.nextId, anyRejected := s.anyRejected || failed }⟩

/-- The session after a submission of which nothing ran. -/
def reject (diagnostics : List Diagnostic) (s : Session) : Answered Verdict :=
  ⟨.rejected diagnostics.length, diagnostics, { s with anyRejected := true }⟩

/-- Runs a program whose names have been matched; there is no answer if the fuel does not suffice. -/
def execute (fuel : Nat) (program : List Stmt) : Session → Option (Answered Verdict)
  | ⟨interactive, machine, nextId, anyRejected, anyAborted⟩ =>
    match Eval.run fuel program machine with
    | .done value machine =>
      some ⟨.finished value, [], ⟨interactive, machine, nextId, anyRejected, anyAborted⟩⟩
    | .failed error machine =>
      some ⟨.aborted error, [.runtime error], ⟨interactive, machine, nextId, anyRejected, true⟩⟩
    | .exhausted => none

/-- Runs a submission.  Names are matched only in a program that was read without a fault; what was
    found about them is kept even if they have faults themselves. -/
def run (fuel : Nat) (source : String) (s : Session) : Option (Answered Verdict) :=
  let parsed := s.read source
  let s := { s with nextId := parsed.nextId }
  if parsed.diagnostics.isEmpty then
    let resolved := resolve parsed.program
    let s := { s with machine := s.machine.learn resolved.resolution }
    if resolved.diagnostics.isEmpty then s.execute fuel parsed.program
    else some (s.reject resolved.diagnostics)
  else
    some (s.reject parsed.diagnostics)

end Session

end Lox
