/-!
  Bytes as text.

  `decode` reads bytes as UTF-8 and refuses what is not: the first byte of a character fixes how many more
  follow and in which range each of them lies, so that overlong forms, surrogates and numbers beyond the last
  character are never accepted.

  The table of first bytes (`lead`) gives the bits that they carry and the ranges that they announce, and the
  reader keeps the ranges that are still expected; it has no other state to go wrong.  A refusal says where the
  broken character starts and how many of its bytes still fitted, or that the bytes ended within it.
-/

namespace Lox.Text

/-- Why bytes are not UTF-8. -/
inductive Utf8Fault where
  /-- The `length` bytes at `index` begin no character that could be completed. -/
  | invalid (length index : Nat)
  /-- The bytes end inside the character that starts at `index`. -/
  | incomplete (index : Nat)
  deriving DecidableEq, Repr

/-- The fault in words. -/
def Utf8Fault.message : Utf8Fault → String
  | .invalid length index =>
    "invalid utf-8 sequence of " ++ toString length ++ " bytes from index " ++ toString index
  | .incomplete index => "incomplete utf-8 byte sequence from index " ++ toString index

/-- The bytes from `low` to `high`. -/
structure ByteRange where
  low : Nat
  high : Nat
  deriving DecidableEq, Repr

/-- Whether a byte lies in the range. -/
def ByteRange.holds (r : ByteRange) (b : UInt8) : Bool :=
  decide (r.low ≤ b.toNat) && decide (b.toNat ≤ r.high)

/-- What the first byte of a character says: the high bits it gives and the ranges of the bytes that
    follow. -/
def Utf8.lead (b : UInt8) : Option (Nat × List ByteRange) :=
  let n := b.toNat
  let next : ByteRange := ⟨0x80, 0xBF⟩
  if n < 0x80 then some (n, [])
  else if n < 0xC2 then none
  else if n < 0xE0 then some (n - 0xC0, [next])
  else if n = 0xE0 then some (n - 0xE0, [⟨0xA0, 0xBF⟩, next])
  else if n = 0xED then some (n - 0xE0, [⟨0x80, 0x9F⟩, next])
  else if n < 0xF0 then some (n - 0xE0, [next, next])
  else if n = 0xF0 then some (n - 0xF0, [⟨0x90, 0xBF⟩, next, next])
  else if n < 0xF4 then some (n - 0xF0, [next, next, next])
  else if n = 0xF4 then some (n - 0xF0, [⟨0x80, 0x8F⟩, next, next])
  else none

/-- Reads characters from a list of bytes that starts at `index`.  Inside a character, `taken` of its
    bytes have been read, `bits` are their payload and `expected` the ranges of those to come. -/
def Utf8.read (index taken bits : Nat) (expected : List ByteRange) :
    List UInt8 → Except Utf8Fault (List Char)
  | [] => if expected.isEmpty then .ok [] else .error (.incomplete (index - taken))
  | b :: rest =>
    match expected with
    | [] =>
      match Utf8.lead b with
      | none => .error (.invalid 1 index)
      | some (n, []) => (Utf8.read (index + 1) 0 0 [] rest).map (Char.ofNat n :: ·)
      | some (n, more) => Utf8.read (index + 1) 1 n more rest
    | range :: more =>
      if range.holds b then
        let n := bits * 64 + (b.toNat - 0x80)
        match more with
        | [] => (Utf8.read (index + 1) 0 0 [] rest).map (Char.ofNat n :: ·)
        | _ => Utf8.read (index + 1) (taken + 1) n more rest
      else .error (.invalid taken (index - taken))

/-- The text that the bytes stand for. -/
def decode (bytes : List UInt8) : Except Utf8Fault String :=
  (Utf8.read 0 0 0 [] bytes).map String.ofList

/-- The bytes that stand for a text. -/
def encode (text : String) : List UInt8 := text.toUTF8.toList

end Lox.Text
