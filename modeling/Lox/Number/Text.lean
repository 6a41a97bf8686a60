import Lox.Number.Decimal

/-!
  Numbers as text.

  Two formats are written.  `text` is what programs see: an integer below 10^15 as such, all else with the
  fewest digits and never with an exponent, however large or small it is.  `json` is the number text of a JSON
  document: always with a point or an exponent, so that it reads as a floating-point number.

  Both write a numeral behind a sign.  The text of a numeral is made from a natural number and a count of
  decimal places (`numeralText`), padded with zeros so that a digit stands on both sides of the point.

  Zero is printed without a sign by `text`, since it goes through an integer; infinities and what is no number
  have names.
-/

namespace Lox.Number

/-- The sign of a negative number. -/
def signText (negative : Bool) : String := if negative then "-" else ""

/-- The digits of a numeral with its last `places` digits behind the point, at least one before it. -/
def numeralText (n places : Nat) : String :=
  if places = 0 then toString n
  else
    let digits := Nat.toDigits 10 n
    let padded := List.replicate (places + 1 - digits.length) '0' ++ digits
    let whole := padded.length - places
    String.ofList (padded.take whole ++ '.' :: padded.drop whole)

/-- The magnitude `m * 2 ^ q`, if it is a whole number. -/
def whole? (m : Nat) (q : Int) : Option Nat :=
  if 0 ≤ q then some (m * Nat.pow 2 q.toNat)
  else
    let unit := Nat.pow 2 (-q).toNat
    if m % unit = 0 then some (m / unit) else none

/-- A magnitude with the fewest digits and without an exponent; of two equally near decimals the
    larger one. -/
def positional (m : Nat) (q : Int) : String :=
  let d := shortest m q .up
  numeralText d.numeral.1 d.numeral.2

/-- A number as programs see it.  Zero has no sign. -/
def text (x : Float) : String :=
  match meaning x with
  | .nan => "NaN"
  | .infinite negative => signText negative ++ "inf"
  | .finite negative m q =>
    match whole? m q with
    | some n =>
      if n < 1000000000000000 then signText (negative && n ≠ 0) ++ toString n
      else signText negative ++ positional m q
    | none => signText negative ++ positional m q

/-! ## JSON -/

/-- A decimal without exponent, with at least one digit behind the point. -/
def pointText (d : Decimal) : String :=
  if 0 ≤ d.exponent then numeralText (10 * d.numeral.1) 1
  else numeralText d.numeral.1 d.numeral.2

/-- A decimal as one digit, the point and the others, and a signed exponent. -/
def exponentText (d : Decimal) : String :=
  let places := digitCount d.digits - 1
  let sign := if d.leadingExponent < 0 then "-" else "+"
  numeralText d.digits places ++ "e" ++ sign ++ toString d.leadingExponent.natAbs

/-- A number in a JSON document: the fewest digits, of two equally near decimals the one with an even
    last digit; an exponent where the first digit has a weight below 10^-5 or from 10^16 on.  JSON
    has no word for a number that is not finite. -/
def json (x : Float) : String :=
  match meaning x with
  | .finite negative m q =>
    if m = 0 then signText negative ++ "0.0"
    else
      let d := shortest m q .even
      if -5 ≤ d.leadingExponent ∧ d.leadingExponent < 16 then signText negative ++ pointText d
      else signText negative ++ exponentText d
  | _ => "null"

end Lox.Number
