import Lox.Fault
import Lox.Number.Decimal
import Lox.Text.Escaped

/-!
  From characters to tokens.

  A program text is cut into pieces that cover it without a gap or an overlap: blanks and comments, lexemes,
  and stretches that are no lexeme.  `nextPiece` cuts off the first one, always the longest that fits;
  `pieces` goes on to the end.  A lexeme becomes a token, a stretch that is none becomes a fault, and neither
  ever stops the reading.  The line of either is that of its last character.

  * **Which piece** is decided by the first character, and for a slash and the marks of two characters by the
    second one.  A string ends at the first quote that is not escaped, and a block comment at the first
    end there is; where there is none, all that is left is one faulty stretch.
  * **Progress.**  The text of a piece and what is left behind it are the text that was given
    (`nextPiece_append`), and the piece is not empty, so that `pieces` ends.  Each kind of piece has its
    own lemma of this form.
  * **Lines** are counted from the newlines of the pieces before, those in comments and strings included.
-/

namespace Lox

/-- A stretch of a program text. -/
inductive Piece where
  /-- Blanks or a comment. -/
  | gap (text : List Char)
  /-- What is read as a token. -/
  | lexeme (kind : TokenKind) (text : List Char)
  /-- What cannot be read. -/
  | fault (cause : LexicalFault) (text : List Char)

namespace Piece

/-- The characters of the piece. -/
def text : Piece → List Char
  | gap text | lexeme _ text | fault _ text => text

/-- How many lines end in the piece. -/
def newlines (p : Piece) : Nat := p.text.count '\n'

end Piece

/-! ## Classes of characters -/

/-- The characters between lexemes. -/
def isBlank (c : Char) : Bool := c == ' ' || c == '\r' || c == '\t' || c == '\n'

/-- The characters that a name can start with: the letters of the Latin alphabet without marks, and
    the low line. -/
def isNameStart (c : Char) : Bool := c.isAlpha || c == '_'

/-- The characters that a name can go on with. -/
def isNamePart (c : Char) : Bool := c.isAlphanum || c == '_'

/-- The mark that one character is, unless an equals sign makes it part of a longer one. -/
def singleMark? (c : Char) : Option Mark := Mark.all.find? (·.text.toList = [c])

/-- The mark that a character and an equals sign are. -/
def doubleMark? (c : Char) : Option Mark := Mark.all.find? (·.text.toList = [c, '='])

/-! ## Pieces

  Each reader is given what stands behind the first character, and gives a piece with what is left. -/

/-- A run of blanks. -/
def readBlanks (c : Char) (rest : List Char) : Piece × List Char :=
  (.gap (c :: rest.takeWhile isBlank), rest.dropWhile isBlank)

/-- A comment up to the end of its line, from behind the two strokes. -/
def readLineComment (rest : List Char) : Piece × List Char :=
  (.gap ('/' :: '/' :: rest.takeWhile (· ≠ '\n')), rest.dropWhile (· ≠ '\n'))

/-- Splits a text behind the first end of a comment. -/
def splitComment? : List Char → Option (List Char × List Char)
  | [] => none
  | '*' :: '/' :: rest => some (['*', '/'], rest)
  | c :: rest => (splitComment? rest).map fun (body, after) => (c :: body, after)

/-- A comment that can go over lines, from behind the stroke and the star.  Comments do not nest. -/
def readBlockComment (rest : List Char) : Piece × List Char :=
  match splitComment? rest with
  | some (body, after) => (.gap ('/' :: '*' :: body), after)
  | none => (.fault .unterminatedComment ('/' :: '*' :: rest), [])

/-- A string literal, from behind the opening quote. -/
def readString (rest : List Char) : Piece × List Char :=
  match Text.Escaped.split? rest with
  | some (body, after) =>
    (.lexeme (.string (String.ofList (Text.Escaped.decode body))) ('"' :: body ++ ['"']), after)
  | none => (.fault .unterminatedString ('"' :: rest), [])

/-- The number that decimal digits stand for. -/
def digitsValue (digits : List Char) : Nat :=
  digits.foldl (fun n c => 10 * n + (c.toNat - '0'.toNat)) 0

/-- Splits a text that starts with a point and digits behind these digits. -/
def splitFraction? : List Char → Option (List Char × List Char)
  | '.' :: rest =>
    if rest.takeWhile Char.isDigit = [] then none
    else some (rest.takeWhile Char.isDigit, rest.dropWhile Char.isDigit)
  | _ => none

/-- A number literal: digits, and a point only if digits follow it. -/
def readNumber (c : Char) (rest : List Char) : Piece × List Char :=
  let whole := c :: rest.takeWhile Char.isDigit
  match splitFraction? (rest.dropWhile Char.isDigit) with
  | some (places, after) =>
    let value := Number.ofNumeral (digitsValue (whole ++ places)) places.length
    (.lexeme (.number value) (whole ++ '.' :: places), after)
  | none =>
    let value := Number.ofNumeral (digitsValue whole) 0
    (.lexeme (.number value) whole, rest.dropWhile Char.isDigit)

/-- A name or a keyword. -/
def readName (c : Char) (rest : List Char) : Piece × List Char :=
  let name := c :: rest.takeWhile isNamePart
  let kind := (Keyword.ofText? (String.ofList name)).elim .identifier .keyword
  (.lexeme kind name, rest.dropWhile isNamePart)

/-- Reads the equals sign that makes a character part of a longer mark. -/
def splitDouble? (c : Char) : List Char → Option (Mark × List Char)
  | '=' :: after => (doubleMark? c).map (·, after)
  | _ => none

/-- A mark; of two that fit the longer one. -/
def readMark (c : Char) (rest : List Char) : Piece × List Char :=
  match splitDouble? c rest with
  | some (m, after) => (.lexeme (.mark m) [c, '='], after)
  | none =>
    match singleMark? c with
    | some m => (.lexeme (.mark m) [c], rest)
    | none => (.fault (.unexpectedCharacter c) [c], rest)

/-- The first piece of a text that starts with `c`, and what comes after it. -/
def nextPiece (c : Char) (rest : List Char) : Piece × List Char :=
  if isBlank c then readBlanks c rest
  else if c = '"' then readString rest
  else if c.isDigit then readNumber c rest
  else if isNameStart c then readName c rest
  else
    match c, rest with
    | '/', '/' :: after => readLineComment after
    | '/', '*' :: after => readBlockComment after
    | _, _ => readMark c rest

/-! ## Nothing is lost

  One equation for each reader: the text of the piece, and then what is left, are what there was. -/

theorem eq_of_splitComment? {text body after : List Char}
    (h : splitComment? text = some (body, after)) : text = body ++ after := by
  fun_induction splitComment? text generalizing body after with
  | case1 => cases h
  | case2 rest => cases h; rfl
  | case3 c rest _ ih =>
    obtain ⟨⟨b, a⟩, hs, he⟩ := Option.map_eq_some_iff.1 h
    cases he
    simp [ih hs]

theorem eq_of_splitFraction? {text places after : List Char}
    (h : splitFraction? text = some (places, after)) : text = '.' :: places ++ after := by
  unfold splitFraction? at h
  split at h
  · split at h
    · cases h
    · cases h
      simp
  · cases h

theorem eq_of_splitDouble? {c : Char} {text after : List Char} {m : Mark}
    (h : splitDouble? c text = some (m, after)) : text = '=' :: after := by
  unfold splitDouble? at h
  split at h
  · obtain ⟨d, _, he⟩ := Option.map_eq_some_iff.1 h
    cases he
    rfl
  · cases h

theorem readBlockComment_append (rest : List Char) :
    (readBlockComment rest).1.text ++ (readBlockComment rest).2 = '/' :: '*' :: rest := by
  unfold readBlockComment
  split
  · rename_i h
    simp [Piece.text, eq_of_splitComment? h]
  · simp [Piece.text]

theorem readString_append (rest : List Char) :
    (readString rest).1.text ++ (readString rest).2 = '"' :: rest := by
  unfold readString
  split
  · rename_i h
    simp [Piece.text, Text.Escaped.eq_of_split? h]
  · simp [Piece.text]

theorem readNumber_append (c : Char) (rest : List Char) :
    (readNumber c rest).1.text ++ (readNumber c rest).2 = c :: rest := by
  unfold readNumber
  split
  · rename_i places after h
    have hd := eq_of_splitFraction? h
    have ht := List.takeWhile_append_dropWhile (p := Char.isDigit) (l := rest)
    rw [hd] at ht
    simpa [Piece.text] using ht
  · simp [Piece.text]

theorem readMark_append (c : Char) (rest : List Char) :
    (readMark c rest).1.text ++ (readMark c rest).2 = c :: rest := by
  unfold readMark
  split
  · rename_i h
    simp [Piece.text, eq_of_splitDouble? h]
  · split <;> simp [Piece.text]

/-- The first piece and what comes after it are the whole text. -/
theorem nextPiece_append (c : Char) (rest : List Char) :
    (nextPiece c rest).1.text ++ (nextPiece c rest).2 = c :: rest := by
  unfold nextPiece
  split
  · simp [readBlanks, Piece.text]
  · split
    · subst_vars
      exact readString_append rest
    · split
      · exact readNumber_append c rest
      · split
        · simp [readName, Piece.text]
        · split
          · simp [readLineComment, Piece.text]
          · exact readBlockComment_append _
          · exact readMark_append c rest

/-! ## All pieces -/

/-- The pieces of a text.  Each takes at least one character, so a text has no more pieces than
    characters. -/
def pieces (text : List Char) : List Piece :=
  upTo text.length text
where
  /-- At most `count` pieces. -/
  upTo : Nat → List Char → List Piece
    | 0, _ => []
    | _, [] => []
    | count + 1, c :: rest =>
      let (piece, after) := nextPiece c rest
      piece :: upTo count after

/-! ## Tokens and faults -/

/-- What reading a text brings up. -/
inductive Item where
  | token (t : Token)
  | fault (line : Nat) (cause : LexicalFault)

/-- The items of pieces that start on a given line, and the end of the program. -/
def itemsFrom (line : Nat) : List Piece → List Item
  | [] => [.token (.finish line)]
  | piece :: rest =>
    let last := line + piece.newlines
    match piece with
    | .gap _ => itemsFrom last rest
    | .lexeme kind text => .token ⟨kind, String.ofList text, last⟩ :: itemsFrom last rest
    | .fault cause _ => .fault last cause :: itemsFrom last rest

/-- All that reading a program text brings up, in its order. -/
def items (source : String) : List Item := itemsFrom 1 (pieces source.toList)

/-- The tokens among the items. -/
def tokensOf (items : List Item) : List Token :=
  items.filterMap fun
    | .token t => some t
    | .fault .. => none

/-- The faults among the items, each with its line. -/
def faultsOf (items : List Item) : List (Nat × LexicalFault) :=
  items.filterMap fun
    | .token _ => none
    | .fault line cause => some (line, cause)

end Lox
