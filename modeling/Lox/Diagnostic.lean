import Lox.Lexeme

/-!
  Diagnostics: faults, and where in the program they are.

  There is one constructor for each stage, with the faults of that stage only, so that the stage of a
  diagnostic can be read off it.  A fault of characters belongs to a line, since there is no token yet;
  every other one belongs to a token, from which both its line and the name in its wording are taken.

  `text` is the line that is shown.  It begins with the line number and, where there is a token, quotes the
  lexeme at which the fault is, or says that it is at the end; then comes the wording of the fault.  An error
  that has ended a program is shown in the same form.
-/

namespace Lox

/-- A fault and its place in the program. -/
inductive Diagnostic where
  | lexical (line : Nat) (fault : LexicalFault)
  | syntactic (token : Token) (fault : SyntacticFault)
  | scoping (token : Token) (fault : ScopingFault)
  | runtime (error : RuntimeError)
  deriving DecidableEq

namespace Diagnostic

/-- The token of the fault, if it has one. -/
def token? : Diagnostic → Option Token
  | lexical .. => none
  | syntactic token _ | scoping token _ => some token
  | runtime error => some error.token

/-- The line of the fault. -/
def line : Diagnostic → Nat
  | lexical line _ => line
  | syntactic token _ | scoping token _ => token.line
  | runtime error => error.token.line

/-- The fault in words. -/
def message : Diagnostic → String
  | lexical _ fault => fault.message
  | syntactic _ fault => fault.message
  | scoping _ fault => fault.message
  | runtime error => error.message

/-- The place of the fault within its line. -/
def location (d : Diagnostic) : String :=
  match d.token? with
  | none => ""
  | some token => if token.isEof then " at end" else " at '" ++ token.lexeme ++ "'"

/-- The diagnostic on one line. -/
def text (d : Diagnostic) : String :=
  "[line " ++ toString d.line ++ "] Error" ++ d.location ++ ": " ++ d.message

end Diagnostic

/-- The diagnostics of reading characters. -/
def lexicalDiagnostics (items : List Item) : List Diagnostic :=
  (faultsOf items).map fun (line, fault) => .lexical line fault

end Lox
