/-!
  The text inside a string literal.

  A literal ends at the first quote that no backslash takes away.  Inside it five pairs of characters stand
  for one; every other backslash stands for itself, together with what follows it, and is no fault.

  `split?` finds the end, `decode` gives the string that the text stands for, and `encode` writes a string so
  that it is read back.  Splitting and decoding step over the same pairs, and so agree on which quote ends the
  literal.
-/

namespace Lox.Text.Escaped

/-- The character that a backslash and `c` stand for, if they form an escape. -/
def escape? (c : Char) : Option Char :=
  if c = '"' then some '"'
  else if c = '\\' then some '\\'
  else if c = 'n' then some '\n'
  else if c = 't' then some '\t'
  else if c = 'r' then some '\r'
  else none

/-- Splits what follows an opening quote at the closing one: the text between them and what comes
    after, if there is a closing quote. -/
def split? : List Char → Option (List Char × List Char)
  | [] => none
  | '"' :: rest => some ([], rest)
  | '\\' :: c :: rest => (split? rest).map fun (body, after) => ('\\' :: c :: body, after)
  | c :: rest => (split? rest).map fun (body, after) => (c :: body, after)

/-- What the text between the quotes stands for. -/
def decode : List Char → List Char
  | [] => []
  | '\\' :: c :: rest =>
    match escape? c with
    | some d => d :: decode rest
    | none => '\\' :: c :: decode rest
  | c :: rest => c :: decode rest

/-- A text written so that `decode` gives it back: quotes and backslashes behind a backslash. -/
def encode : List Char → List Char
  | [] => []
  | c :: rest => if c = '"' ∨ c = '\\' then '\\' :: c :: encode rest else c :: encode rest

/-! ## Splitting -/

/-- Splitting loses nothing but the closing quote. -/
theorem eq_of_split? {text body after : List Char} (h : split? text = some (body, after)) :
    text = body ++ '"' :: after := by
  fun_induction split? text generalizing body after with
  | case1 => cases h
  | case2 rest => simp_all
  | case3 c rest ih =>
    obtain ⟨⟨b, a⟩, hs, he⟩ := Option.map_eq_some_iff.1 h
    cases he
    simp [ih hs]
  | case4 c rest _ _ ih =>
    obtain ⟨⟨b, a⟩, hs, he⟩ := Option.map_eq_some_iff.1 h
    cases he
    simp [ih hs]

end Lox.Text.Escaped
