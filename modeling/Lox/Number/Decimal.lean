import Lox.Number.Meaning

/-!
  Decimals, and the shortest one that stands for a double.

  A decimal is read as the double nearest to it.  Many decimals are read as the same double; `shortest` picks
  one with the fewest digits, and of those the nearest to the double's exact value.

  It tries one digit, two digits and so on: on the grid of a given number of digits only the two neighbours of
  the exact value can be the answer.  Seventeen digits always suffice, and if they did not the exact decimal
  would be taken, so that what is printed is read as the same double without any knowledge of that bound.

  Where both neighbours are equally near, the two formats choose differently (`Tie`).
-/

namespace Lox.Number

/-- The double that a numeral without sign stands for: the one nearest to `n` with its last `places`
    digits behind the point. -/
def ofNumeral (n places : Nat) : Float := .ofModel (.ofScientific n (-places))

/-- The number `digits * 10 ^ exponent`. -/
structure Decimal where
  /-- The digits, as one natural number. -/
  digits : Nat
  /-- The weight of the last digit. -/
  exponent : Int
  deriving DecidableEq, Repr

/-- Which of two equally near decimals is taken. -/
inductive Tie where
  /-- The larger one. -/
  | up
  /-- The one whose last digit is even. -/
  | even
  deriving DecidableEq, Repr

/-- How many digits a natural number has. -/
def digitCount (n : Nat) : Nat := (Nat.toDigits 10 n).length

namespace Decimal

/-- The numeral that writes the decimal without an exponent: its digits and how many of them stand
    behind the point. -/
def numeral (d : Decimal) : Nat × Nat :=
  if 0 ≤ d.exponent then (d.digits * Nat.pow 10 d.exponent.toNat, 0)
  else (d.digits, (-d.exponent).toNat)

/-- The double that the decimal is read as. -/
def toFloat (d : Decimal) : Float := ofNumeral d.numeral.1 d.numeral.2

/-- The weight of the first digit. -/
def leadingExponent (d : Decimal) : Int := d.exponent + digitCount d.digits - 1

/-- The decimal that is exactly `m * 2 ^ q`. -/
def exact (m : Nat) (q : Int) : Decimal :=
  if 0 ≤ q then ⟨m * Nat.pow 2 q.toNat, 0⟩ else ⟨m * Nat.pow 5 (-q).toNat, q⟩

/-- The decimals with `count` digits next to `d`, nearest first; `d` itself if it has no more. -/
def neighbours (d : Decimal) (count : Nat) (tie : Tie) : List Decimal :=
  if digitCount d.digits ≤ count then [d]
  else
    let dropped := digitCount d.digits - count
    let unit := Nat.pow 10 dropped
    let below : Decimal := ⟨d.digits / unit, d.exponent + dropped⟩
    -- nines that carry leave a zero behind, which is not kept
    let next := d.digits / unit + 1
    let above : Decimal :=
      if digitCount next ≤ count then ⟨next, d.exponent + dropped⟩
      else ⟨next / 10, d.exponent + dropped + 1⟩
    match compare (2 * (d.digits % unit)) unit, tie with
    | .lt, _ => [below, above]
    | .gt, _ => [above, below]
    | .eq, .up => [above, below]
    | .eq, .even => if below.digits % 2 = 0 then [below, above] else [above, below]

end Decimal

/-- The decimal with the fewest digits that is read as the double `m * 2 ^ q`; of several the nearest
    to it.  Seventeen digits are enough for every double. -/
def shortest (m : Nat) (q : Int) (tie : Tie) : Decimal :=
  let value := Decimal.exact m q
  let target := (nearest false m q).toBits
  let found := (List.range 17).findSome? fun i =>
    (value.neighbours (i + 1) tie).find? fun d => d.toFloat.toBits = target
  found.getD value

end Lox.Number
