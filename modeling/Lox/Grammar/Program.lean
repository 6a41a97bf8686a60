import Lox.Grammar.Rules

/-!
  From tokens to a program.

  `parse` reads declarations up to the end.  Those that fail are left out of the program and show up in the
  diagnostics, together with the faults that were only reported.  So nothing is missing from the program if
  there are no diagnostics, and only such a program goes on to be matched and run.

  The fuel that it is given grows with the number of tokens and always suffices, so the case of its running
  out is never met: every rule takes a token or goes on to a rule that is further down, and there are fewer
  of these in a row than fuel for each token.
-/

namespace Lox

/-- What reading tokens gives. -/
structure Parsed where
  program : List Stmt
  diagnostics : List Diagnostic
  /-- The number that the next occurrence of a name would get. -/
  nextId : Nat

namespace Grammar

/-- Fuel enough to read a number of tokens: between two tokens fewer than twenty rules call each
    other. -/
def enoughFuel (tokens : Nat) : Nat := 32 * (tokens + 1)

/-- Reads a program.  `firstId` is the number of its first occurrence of a name. -/
def parse (tokens : List Token) (interactive : Bool) (firstId : Nat) : Parsed :=
  let start := Cursor.start tokens interactive firstId
  match declarations (enoughFuel start.ahead.length) false start with
  | .done program c => ⟨program, c.problems.toList, c.nextId⟩
  | .failed problem c => ⟨[], (c.report problem).problems.toList, c.nextId⟩
  | .exhausted => ⟨[], [], firstId⟩

end Grammar

end Lox
