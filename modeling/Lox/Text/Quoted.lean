import Lox.Text.Visible

/-!
  Text between double quotes.

  `jsonString` writes a string of a JSON document, `quotedName` a file name in a message.  Both put a backslash
  before a quote and before a backslash, and write control characters by their numbers.  A file name shows
  everything that cannot be seen by its number; everything else stands as it is.

  Each is given by what one character becomes (`jsonChar`, `quotedChar`), so that whatever holds of a string
  is shown for a character.
-/

namespace Lox.Text

/-- A number in base sixteen, with at least `width` digits. -/
def hexText (width n : Nat) : String :=
  let digits := Nat.toDigits 16 n
  String.ofList (List.replicate (width - digits.length) '0' ++ digits)

/-- One character of a JSON string. -/
def jsonChar (c : Char) : String :=
  if c = '"' then "\\\""
  else if c = '\\' then "\\\\"
  else if c = '\n' then "\\n"
  else if c = '\r' then "\\r"
  else if c = '\t' then "\\t"
  else if c = '\x08' then "\\b"
  else if c = '\x0c' then "\\f"
  else if c.toNat < 0x20 then "\\u" ++ hexText 4 c.toNat
  else c.toString

/-- A JSON string. -/
def jsonString (s : String) : String := "\"" ++ String.join (s.toList.map jsonChar) ++ "\""

/-- One character of a file name in a message. -/
def quotedChar (c : Char) : String :=
  if c = '"' then "\\\""
  else if c = '\\' then "\\\\"
  else if c = '\n' then "\\n"
  else if c = '\r' then "\\r"
  else if c = '\t' then "\\t"
  else if c = '\x00' then "\\0"
  else if isVisible c then c.toString
  else "\\u\x7b" ++ hexText 1 c.toNat ++ "\x7d"

/-- A file name in a message. -/
def quotedName (s : String) : String := "\"" ++ String.join (s.toList.map quotedChar) ++ "\""

end Lox.Text
