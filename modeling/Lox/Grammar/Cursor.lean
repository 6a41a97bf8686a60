import Lox.Action
import Lox.Diagnostic
import Lox.Syntax

/-!
  Reading tokens one after the other.

  A cursor holds the tokens that are still to be read.  They are those before the first end of the program;
  what stands behind that is never seen, and no position can run over the end.  Beside them it holds the next
  number for an occurrence, how many loops are around the place, and what has been reported.

  A production reads tokens off the front; it fails with a diagnostic, which whoever stops the failure
  reports.  To report without failing is a step of its own (`report`), for faults that do not confuse the
  reading.

  * **Reading** (`acceptWhere`).  All tokens are taken by one step, if they fit.  `require` fails at the token in
    front where the wanted one is missing, and takes nothing.
  * **Resuming** (`resume`).  After a failure the tokens up to the next boundary are skipped: a semicolon, which
    is taken, or a keyword that begins a declaration, which is not.  The token at which the failure happened
    is skipped in any case, so that reading gets on.
-/

namespace Lox.Grammar

/-- The state of reading. -/
structure Cursor where
  /-- The tokens to be read before the end of the program. -/
  ahead : List Token
  /-- The end of the program. -/
  finish : Token
  /-- Whether the last expression may stand without its semicolon. -/
  interactive : Bool
  /-- How many loops of the innermost function body are being read. -/
  loopDepth : Nat
  /-- The number of the next occurrence of a name. -/
  nextId : Nat
  /-- What has been reported. -/
  problems : Array Diagnostic

namespace Cursor

/-- The token at the front. -/
def current (c : Cursor) : Token := c.ahead.headD c.finish

/-- Whether everything before the end has been read. -/
def atEnd (c : Cursor) : Bool := c.ahead.isEmpty

/-- Whether the token at the front is of the kind. -/
def sees (c : Cursor) (kind : TokenKind) : Bool :=
  match c.ahead with
  | t :: _ => decide (t.kind = kind)
  | [] => false

/-- Adds a diagnostic. -/
def report (c : Cursor) (d : Diagnostic) : Cursor := { c with problems := c.problems.push d }

/-- The cursor before the first of some tokens.  Where they have no end, one is put behind them, on
    the line of the last. -/
def start (tokens : List Token) (interactive : Bool) (firstId : Nat) : Cursor where
  ahead := tokens.takeWhile (!·.isEof)
  finish := (tokens.find? (·.isEof)).getD (.finish ((tokens.getLast?.map Token.line).getD 1))
  interactive
  loopDepth := 0
  nextId := firstId
  problems := #[]

end Cursor

/-- Reads part of a program. -/
abbrev Production := Action Cursor Diagnostic

/-! ## Single tokens

  Everything that reads a token goes through `acceptWhere`, so what holds of it holds of every reading step. -/

/-- Reads the token at the front if it is of a kind that fits. -/
def acceptWhere (fits : TokenKind → Bool) : Production (Option Token) := fun c =>
  match c.ahead with
  | t :: rest => if fits t.kind then .done (some t) { c with ahead := rest } else .done none c
  | [] => .done none c

/-- Reads the token at the front if it is of the kind. -/
def accept (kind : TokenKind) : Production (Option Token) := acceptWhere fun k => decide (k = kind)

/-- Reads the token at the front if it is one of the marks. -/
def acceptMark (marks : List Mark) : Production (Option Token) :=
  acceptWhere fun
    | .mark m => marks.contains m
    | _ => false

/-- Whether the token at the front is of the kind. -/
def sees (kind : TokenKind) : Production Bool := .read (·.sees kind)

/-- Whether everything before the end has been read. -/
def atEnd : Production Bool := .read Cursor.atEnd

/-- Reports a fault and goes on. -/
def report (token : Token) (fault : SyntacticFault) : Production Unit :=
  .update (·.report (.syntactic token fault))

/-- Fails at the token at the front. -/
def failHere {α : Type} (fault : SyntacticFault) : Production α := do
  let token ← .read Cursor.current
  .fail (.syntactic token fault)

/-- Reads a token of the kind, and fails with `fault` if there is none. -/
def require (kind : TokenKind) (fault : SyntacticFault) : Production Token := do
  match ← accept kind with
  | some token => pure token
  | none => failHere fault

/-- Reads the mark that the place asks for. -/
def expect (place : Place) : Production Token := require (.mark place.mark) (.missing place)

/-- Reads a name. -/
def expectName (role : NameRole) : Production Token := require .identifier (.noName role)

/-- Reads `x` unless a token of the kind is at the front; there `default` takes its place. -/
def unlessSees {α : Type} (kind : TokenKind) (default : α) (x : Production α) : Production α := do
  if ← sees kind then pure default else x

/-- Reads `x` behind a token of the kind, if there is one. -/
def behind {α : Type} (kind : TokenKind) (x : Production α) : Production (Option α) := do
  match ← accept kind with
  | some _ => some <$> x
  | none => pure none

/-- Gives an occurrence of a name its number. -/
def freshRef (name : Token) : Production Ref := do
  let id ← .read Cursor.nextId
  .update fun c => { c with nextId := id + 1 }
  pure ⟨id, name⟩

/-! ## Loops -/

/-- Reads with another number of loops around, and goes back to the present one afterwards, also
    after a failure. -/
def withLoops {α : Type} (depth : Nat → Nat) (x : Production α) : Production α :=
  .keeping Cursor.loopDepth (fun n c => { c with loopDepth := n }) do
    .update fun c => { c with loopDepth := depth c.loopDepth }
    x

/-! ## Going on after a failure -/

/-- Whether a keyword begins a declaration or a statement at which reading can start again. -/
def startsAnew : TokenKind → Bool
  | .keyword k =>
    [Keyword.classKw, .funcKw, .varKw, .forKw, .ifKw, .whileKw, .returnKw].contains k
  | _ => false

/-- What is left of the tokens behind `last` from the next place on where reading can start again:
    behind a semicolon, or before a keyword that starts anew. -/
def nextBoundary (last : Token) : List Token → List Token
  | [] => []
  | t :: rest =>
    if last.kind = .mark .semicolon || startsAnew t.kind then t :: rest else nextBoundary t rest

/-- Skips the token at the front, and then all tokens up to the next boundary. -/
def skipToBoundary : Production Unit :=
  .update fun c =>
    match c.ahead with
    | [] => c
    | t :: rest => { c with ahead := nextBoundary t rest }

/-- Reports what a declaration failed with, and gives it up up to the next boundary. -/
def resume {α : Type} (problem : Diagnostic) : Production (Option α) := do
  .update (·.report problem)
  skipToBoundary
  pure none

end Lox.Grammar
