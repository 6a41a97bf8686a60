import Lox.Number.Text
import Lox.Proofs.Number.Doubles
import Lox.Proofs.Scanning.Lexemes

/-!
  Numerals that stand for doubles.

  A number is printed either as a whole number or with the fewest decimal places that still are read as
  it.  That the second way comes to an end with a numeral for the same double is what has to be shown, and
  no bound on the distance between neighbouring doubles is needed for it: if none of the decimals that are
  tried does, the exact one is taken.

  1. **Exact numerals** (`ofNumeral_whole`, `ofNumeral_fraction`).  A numeral that writes the exact magnitude
     of a double is read as this double.  Reading scales a whole number up by `2 ^ 53`, and divides a
     fraction by a power of ten; neither leaves a remainder (`divCore_exact`), so that rounding has nothing
     to do.
  2. **Shortest decimals** (`shortest_toFloat`).  A decimal that has been found by trying is read as the
     double by the very test that found it, and the exact one by the first part.
  3. **Signs** (`ofNumeral_unsigned`).  No numeral stands for a negative number: the sign that reading starts
     with is kept by rounding and by packing.
  4. **Texts** (`numeralText_lexeme`).  The text of a numeral is a lexeme of the language, with no sign and no
     exponent: its digits are padded with zeros, and there is at least one on each side of the point.
-/

namespace Lox.Number

open Float.Model (Format)
open Float.Model.UnpackedFloat

variable {m n : Nat} {q : Int}

/-! ## Exact numerals

  Numbers of the format are fractions with a power of two below, so each has a finite decimal, and this is read
  without a remainder. -/

/-- A whole number that is a magnitude of the format is read without rounding. -/
theorem ofScientific_whole (h : Canonical m q) {k : Nat} (hk : q + 53 = k) (hn : n * 2 ^ 53 = m * 2 ^ k) :
    ofScientific .binary64 n 0 = .finite .positive m q h.pos := by
  have hpos : n ≠ 0 := by
    rintro rfl
    rw [Nat.zero_mul] at hn
    exact (Nat.mul_pos h.pos (Nat.two_pow_pos k)).ne hn
  unfold ofScientific
  rw [dif_neg hpos, if_neg (by decide), if_neg (by show ¬ (0 : Int) < -(2 ^ 11 + (n.log2 : Int)); omega),
    if_pos (Int.le_refl 0)]
  show roundWithAccuracy .binary64 .positive (n <<< 53 * 1) (-53 + 0) .exact = _
  rw [Nat.mul_one, Nat.shiftLeft_eq, hn, show (-53 + 0 : Int) = q - k by omega]
  exact roundWithAccuracy_exact h k

/-- How many binary digits a magnitude has as a decimal with all its places: at most one more than
    there are between it and the power of ten that it is divided by. -/
theorem log2_places (hm : 0 < m) (k : Nat) :
    (m * 5 ^ k).log2 + k ≤ m.log2 + (10 ^ k).log2 + 1 := by
  have hmlt : m < 2 ^ (m.log2 + 1) := Nat.lt_log2_self
  have htenlt : 10 ^ k < 2 ^ ((10 ^ k).log2 + 1) := Nat.lt_log2_self
  have hlow : 2 ^ (m * 5 ^ k).log2 ≤ m * 5 ^ k :=
    Nat.log2_self_le (Nat.mul_pos hm (Nat.pow_pos (by decide))).ne'
  have hten : 5 ^ k * 2 ^ k = 10 ^ k := (Nat.mul_pow 5 2 k).symm
  -- Both products are caught between powers of two, and the powers are compared.
  have hle : 2 ^ ((m * 5 ^ k).log2 + k) ≤ m * 10 ^ k := by
    rw [pow_add, ← hten, ← Nat.mul_assoc]
    exact Nat.mul_le_mul_right _ hlow
  have hlt : m * 10 ^ k < 2 ^ (m.log2 + 1 + ((10 ^ k).log2 + 1)) := by
    rw [pow_add]
    exact Nat.mul_lt_mul'' hmlt htenlt
  have hexponents := (Nat.pow_lt_pow_iff_right (by decide)).mp (Nat.lt_of_le_of_lt hle hlt)
  omega

/-- The division by the power of ten leaves no remainder. -/
theorem divCore_exact (h : Canonical m q) {k : Nat} (hk : q = -(k : Int)) :
    ∃ j : Nat, divCore .binary64 (m * 5 ^ k) 0 (10 ^ k) 0 = (m * 2 ^ j, q - j, .exact) := by
  have hlow := h.low
  have hlog : m.log2 < 53 := (Nat.log2_lt h.pos.ne').mpr h.small
  have hplaces := log2_places h.pos k
  -- The exponent that the quotient gets is at most that of the magnitude.
  obtain ⟨target, htarget, hle⟩ : ∃ target : Int, min (0 - 0 : Int) (Format.binary64.targetExponent
      (Float.Model.totalExponent (m * 5 ^ k) 0 - Float.Model.totalExponent (10 ^ k) 0)) = target ∧
        target ≤ q := by
    refine ⟨_, rfl, ?_⟩
    rw [targetExponent_eq, Float.Model.totalExponent, Float.Model.totalExponent]
    omega
  obtain ⟨j, hj⟩ : ∃ j : Nat, target = q - j := ⟨(q - target).toNat, by omega⟩
  have hshift : (0 - 0 - target : Int).toNat = k + j := by omega
  have hdividend : (m * 5 ^ k) <<< (k + j) = m * 2 ^ j * 10 ^ k := by
    have hten : 5 ^ k * 2 ^ k = 10 ^ k := (Nat.mul_pow 5 2 k).symm
    rw [Nat.shiftLeft_eq, pow_add, ← hten]
    ring
  have hpow : 0 < 10 ^ k := Nat.pow_pos (by decide)
  refine ⟨j, ?_⟩
  unfold divCore
  dsimp only
  rw [htarget, hshift, hdividend, Nat.mul_div_cancel _ hpow, Nat.mul_mod_left, hj]
  rfl

/-- A magnitude of the format with all its decimal places is read without rounding. -/
theorem ofScientific_fraction (h : Canonical m q) {k : Nat} (hk : q = -(k : Int)) (hplaces : 0 < k) :
    ofScientific .binary64 (m * 5 ^ k) (-(k : Int)) = .finite .positive m q h.pos := by
  have hlow := h.low
  have hpos : m * 5 ^ k ≠ 0 := (Nat.mul_pos h.pos (Nat.pow_pos (by decide))).ne'
  obtain ⟨j, hj⟩ := divCore_exact h hk
  unfold ofScientific
  rw [dif_neg hpos, if_neg (by show ¬ -(k : Int) > 2 ^ 11; omega),
    if_neg (by show ¬ -(k : Int) < -(2 ^ 11 + ((m * 5 ^ k).log2 : Int)); omega), if_neg (by omega)]
  have hdivisor : (-(-(k : Int))).toNat = k := by omega
  simp only [hdivisor, div, hj]
  exact roundWithAccuracy_exact h j

/-- When a magnitude is a whole number. -/
theorem whole?_eq_some : whole? m q = some n ↔
    (∃ k : Nat, q = k ∧ n = m * 2 ^ k) ∨ ∃ k : Nat, q = -(k : Int) ∧ 0 < k ∧ m = n * 2 ^ k := by
  unfold whole?
  split
  · rename_i hq
    obtain ⟨k, rfl⟩ := Int.eq_ofNat_of_zero_le hq
    constructor
    · intro h
      exact .inl ⟨k, rfl, (Option.some.inj h).symm⟩
    · rintro (⟨j, hj, rfl⟩ | ⟨j, hj, hpos, -⟩)
      · rw [Int.toNat_natCast, Int.ofNat_inj.mp hj]
        rfl
      · omega
  · rename_i hq
    obtain ⟨k, rfl⟩ : ∃ k : Nat, q = -(k : Int) := ⟨(-q).toNat, by omega⟩
    have hk : (-(-(k : Int))).toNat = k := by omega
    -- Below the point the magnitude is a multiple of the unit, or it is no whole number.
    have hpow : 0 < 2 ^ k := Nat.two_pow_pos k
    simp only [hk]
    show (if m % 2 ^ k = 0 then some (m / 2 ^ k) else none) = some n ↔ _
    constructor
    · intro h
      split at h
      · rename_i hdvd
        cases h
        exact .inr ⟨k, rfl, by omega, (Nat.div_mul_cancel (Nat.dvd_of_mod_eq_zero hdvd)).symm⟩
      · cases h
    · rintro (⟨j, hj, -⟩ | ⟨j, hj, hpos, rfl⟩)
      · omega
      · obtain rfl : k = j := by omega
        rw [if_pos (Nat.mul_mod_left n _), Nat.mul_div_cancel _ hpow]

/-- How the double with a magnitude is put together. -/
theorem nearest_positive (h : Canonical m q) :
    nearest false m q = .ofModel (.pack (.finite .positive m q h.pos)) :=
  nearest_canonical h false

/-- **A whole number that is a magnitude is read as the double with it.** -/
theorem ofNumeral_whole (h : Canonical m q) (hn : whole? m q = some n) :
    ofNumeral n 0 = nearest false m q := by
  have hsmall := h.small
  suffices hread : ofScientific .binary64 n 0 = .finite .positive m q h.pos by
    rw [nearest_positive h, ← hread]
    rfl
  rcases whole?_eq_some.mp hn with ⟨k, rfl, rfl⟩ | ⟨k, rfl, hk, rfl⟩
  · exact ofScientific_whole h (k := k + 53) (by omega) (by rw [pow_add, Nat.mul_assoc])
  · -- A whole number has no more than its own digits behind the point.
    have hfew : k ≤ 53 := by
      by_contra hmany
      have hn : 0 < n := Nat.pos_of_mul_pos_right h.pos
      have hle : 2 ^ 53 ≤ n * 2 ^ k :=
        (Nat.pow_le_pow_right (by decide) (by omega)).trans (Nat.le_mul_of_pos_left _ hn)
      omega
    refine ofScientific_whole h (k := 53 - k) (by omega) ?_
    rw [Nat.mul_assoc, ← pow_add, Nat.add_sub_cancel' hfew]

/-- **A magnitude with all its decimal places is read as the double with it.** -/
theorem ofNumeral_fraction (h : Canonical m q) {k : Nat} (hk : q = -(k : Int)) (hplaces : 0 < k) :
    ofNumeral (m * 5 ^ k) k = nearest false m q := by
  rw [nearest_positive h, ← ofScientific_fraction h hk hplaces]
  rfl

/-- The exact decimal of a double is read as it. -/
theorem toFloat_exact (h : Canonical m q) : (Decimal.exact m q).toFloat = nearest false m q := by
  unfold Decimal.exact
  split
  · rename_i hq
    have hwhole : whole? m q = some (m * 2 ^ q.toNat) := if_pos hq
    rw [← ofNumeral_whole h hwhole]
    show ofNumeral (m * 2 ^ q.toNat * 10 ^ 0) 0 = _
    rw [pow_zero, Nat.mul_one]
  · rename_i hq
    rw [Decimal.toFloat, Decimal.numeral, if_neg hq]
    exact ofNumeral_fraction h (by omega) (by omega)

/-- **The shortest decimal for a double is read as it.** -/
theorem shortest_toFloat (h : Canonical m q) (tie : Tie) :
    (shortest m q tie).toFloat = nearest false m q := by
  unfold shortest
  dsimp only
  generalize hfound : ((List.range 17).findSome? fun i => (((Decimal.exact m q).neighbours (i + 1) tie).find?
    fun d => d.toFloat.toBits = (nearest false m q).toBits)) = found
  cases found with
  | none => exact toFloat_exact h
  | some d =>
    obtain ⟨i, -, hd⟩ := List.exists_of_findSome?_eq_some hfound
    -- The test that a decimal has passed says that it is read as the double.
    have hbits := List.find?_some hd
    exact eq_of_toBits (of_decide_eq_true hbits)

/-! ## What numerals stand for -/

/-- A number with a given sign. -/
def Signed (sign : Sign) : Float.Model.UnpackedFloat → Prop
  | .notANumber => False
  | .infinity s | .zero s => s = sign
  | .finite s _ _ _ => s = sign

variable {sign : Sign}

/-- Packed fields have their sign, and are a number unless they are the fields of none. -/
theorem signed_unpack {exponent : BitVec 11} {mantissa : BitVec 52} (h : exponent = -1#11 → mantissa = 0#52) :
    Signed sign (unpack .binary64 (packComponents .binary64 sign exponent mantissa)) := by
  unfold unpack
  simp only [unpackMantissa_packComponents, unpackExponent_packComponents, unpackSign_packComponents,
    sign_ofBitVec_toBitVec]
  split
  · rename_i hlast
    rw [if_pos (h hlast)]
    rfl
  · split
    · split <;> rfl
    · rfl

/-- The sign is kept where a number is packed. -/
theorem signed_pack {f : Float.Model.UnpackedFloat} (h : Signed sign f) :
    Signed sign (Float.Model.pack f).unpack := by
  show Signed sign (unpack .binary64 (pack .binary64 f))
  cases f with
  | notANumber => exact h.elim
  | infinity s =>
    cases h
    exact signed_unpack fun _ => rfl
  | zero s =>
    cases h
    exact signed_unpack fun _ => rfl
  | finite s m q hm =>
    cases h
    unfold pack
    dsimp only
    split
    · exact signed_unpack fun _ => rfl
    · rename_i hfits
      split
      · -- The exponent is below that of an infinity, since the number was found to fit.
        refine signed_unpack fun hlast => ?_
        have hnat := congrArg BitVec.toNat hlast
        rw [BitVec.toNat_ofNat] at hnat
        have hlast : (q + (Format.binary64.exponentBias : Int) + (52 : Nat)).toNat % 2 ^ 11 = 2047 := hnat
        omega
      · exact signed_unpack fun hlast => absurd hlast (by decide)

/-- Rounding keeps the sign that it is given. -/
theorem signed_roundWithAccuracy (m : Nat) (q : Int) (accuracy : Accuracy) :
    Signed sign (roundWithAccuracy .binary64 sign m q accuracy) := by
  unfold roundWithAccuracy
  dsimp only
  split <;> rfl

/-- **A numeral stands for no negative number**: it is taken for a finite double or, if it is too large
    for all of them, for the infinite one. -/
theorem ofNumeral_unsigned (n places : Nat) : meaning (ofNumeral n places) = .infinite false ∨
    ∃ m q, meaning (ofNumeral n places) = .finite false m q := by
  -- Zero, too large, too small, a whole number, a fraction.
  have hsigned : Signed .positive (ofScientific .binary64 n (-places)) := by
    unfold ofScientific
    split
    · rfl
    split
    · rfl
    split
    · rfl
    split
    · exact signed_roundWithAccuracy _ _ _
    · exact signed_roundWithAccuracy _ _ _
  have hpacked : Signed .positive (ofNumeral n places).toModel.unpack := signed_pack hsigned
  unfold meaning
  cases hunpack : (ofNumeral n places).toModel.unpack with
  | notANumber =>
    rw [hunpack] at hpacked
    exact hpacked.elim
  | infinity s =>
    rw [hunpack] at hpacked
    cases hpacked
    exact .inl rfl
  | zero s =>
    rw [hunpack] at hpacked
    cases hpacked
    exact .inr ⟨0, 0, rfl⟩
  | finite s m q hm =>
    rw [hunpack] at hpacked
    cases hpacked
    exact .inr ⟨m, q, rfl⟩

/-! ## Texts of numerals -/

/-- The digits of a number are read as it, also with zeros before them. -/
theorem digitsValue_padded (zeros n : Nat) :
    digitsValue (List.replicate zeros '0' ++ Nat.toDigits 10 n) = n := by
  show Nat.ofDigitChars 10 (List.replicate zeros '0' ++ Nat.toDigits 10 n) 0 = n
  rw [Nat.ofDigitChars_append, Nat.ofDigitChars_replicate_zero, Nat.mul_zero, Nat.ofDigitChars_ten_toDigits]

/-- Padding with zeros leaves nothing but digits. -/
theorem isDigit_padded (zeros n : Nat) :
    ∀ c ∈ List.replicate zeros '0' ++ Nat.toDigits 10 n, c.isDigit = true := by
  intro c hc
  rcases List.mem_append.mp hc with hc | hc
  · cases List.eq_of_mem_replicate hc
    rfl
  · exact Nat.isDigit_of_mem_toDigits (by decide) (by decide) hc

/-- **The text of a numeral is a lexeme**, for the double that the numeral stands for. With decimal places,
    the padded digits are cut where the point stands, and both parts have a digit. -/
theorem numeralText_lexeme (n places : Nat) :
    IsLexeme (.number (ofNumeral n places)) (numeralText n places).toList := by
  unfold numeralText
  split
  · rename_i hplaces
    subst hplaces
    have hdigits : Digits (Nat.toDigits 10 n) := ⟨Nat.toDigits_ne_nil, isDigit_padded 0 n⟩
    have hvalue : digitsValue (Nat.toDigits 10 n) = n := digitsValue_padded 0 n
    have hlexeme := IsLexeme.whole hdigits
    rw [hvalue] at hlexeme
    rwa [Nat.toString_eq_ofList_toDigits, String.toList_ofList]
  · rename_i hplaces
    dsimp only
    generalize hpadded : List.replicate (places + 1 - (Nat.toDigits 10 n).length) '0' ++ Nat.toDigits 10 n =
      padded
    have hall : ∀ c ∈ padded, c.isDigit = true := hpadded ▸ isDigit_padded _ n
    have hvalue : digitsValue padded = n := hpadded ▸ digitsValue_padded _ n
    -- There are enough digits for one before the point.
    have hlength : places < padded.length := by
      rw [← hpadded, List.length_append, List.length_replicate]
      omega
    have hwhole : Digits (padded.take (padded.length - places)) := by
      refine ⟨List.ne_nil_of_length_pos ?_, fun c hc => hall c (List.mem_of_mem_take hc)⟩
      rw [List.length_take]
      omega
    have hbehind : (padded.drop (padded.length - places)).length = places := by
      rw [List.length_drop]
      omega
    have hplaces : Digits (padded.drop (padded.length - places)) := by
      refine ⟨List.ne_nil_of_length_pos ?_, fun c hc => hall c (List.mem_of_mem_drop hc)⟩
      omega
    have hlexeme := IsLexeme.fraction hwhole hplaces
    rw [List.take_append_drop, hvalue, hbehind] at hlexeme
    rwa [String.toList_ofList]

end Lox.Number
