/-!
  The exact value of a double, and the double nearest to an exact value.

  Every finite double is a sign and a magnitude `m * 2 ^ q` with a natural `m` and an integer `q`.  `meaning`
  takes a double apart, `nearest` puts one together with the usual rounding, ties to the even neighbour.  What
  they do with bits and rounding is the library's model of doubles, so that the hardware's arithmetic and
  these functions speak of the same numbers.

  `remainder` is the exact remainder of a division, with the sign of the dividend: it is computed on naturals,
  where nothing is lost, and is rounded only at the end, where there is nothing to round.
-/

namespace Lox.Number

/-- What a double stands for. -/
inductive Meaning where
  /-- No number. -/
  | nan
  /-- One of the two infinities. -/
  | infinite (negative : Bool)
  /-- The magnitude `m * 2 ^ q` with a sign; zero has a sign too. -/
  | finite (negative : Bool) (m : Nat) (q : Int)
  deriving DecidableEq, Repr

/-- Takes a double apart. -/
def meaning (x : Float) : Meaning :=
  match x.toModel.unpack with
  | .notANumber => .nan
  | .infinity sign => .infinite (sign == .negative)
  | .zero sign => .finite (sign == .negative) 0 0
  | .finite sign m q _ => .finite (sign == .negative) m q

/-- The double nearest to `m * 2 ^ q`, with the given sign. -/
def nearest (negative : Bool) (m : Nat) (q : Int) : Float :=
  let sign := if negative then .negative else .positive
  .ofModel (.pack (if m = 0 then .zero sign else .round .binary64 sign m q))

/-- The value that is no number. -/
def nan : Float := .ofModel (.pack .notANumber)

/-- What is left of `x` after taking away `y` as many whole times as it fits: exact, smaller than `y`
    and with the sign of `x`, also where it is zero. -/
def remainder (x y : Float) : Float :=
  match meaning x, meaning y with
  | .finite negative m q, .finite _ m' q' =>
    if m' = 0 then nan
    else
      -- on the finer of the two grids both magnitudes are whole numbers
      let e := min q q'
      nearest negative ((m <<< (q - e).toNat) % (m' <<< (q' - e).toNat)) e
  | .finite .., .infinite _ => x
  | _, _ => nan

end Lox.Number
