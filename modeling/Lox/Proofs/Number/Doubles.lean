import Mathlib
import Lox.Number.Meaning

/-!
  Doubles taken apart, and put together again.

  A double is 64 bits in three fields: a sign, an exponent and a mantissa.  What it is worth is read off
  them by taking it apart, and what an operation comes to is rounded and put together again.  Everything
  the later modules say about numerals needs that these two ways are inverse to each other.

  1. **Magnitudes** (`Canonical`).  A finite double other than zero has one magnitude `m * 2 ^ q` in the
     range of the format: either all 53 digits are taken, or the exponent is the smallest there is.
  2. **Bits** (`pack_unpack`, `unpack_pack`).  Taking a double apart gives such a magnitude
     (`canonical_of_unpack`), and putting it together gives the double back, bit for bit.  The cases are
     those of the exponent field: all ones (an infinity, or no number), zero (fewer digits), and the rest.
  3. **Rounding** (`roundWithAccuracy_exact`).  A number that the format has is not changed by rounding, on
     whatever finer grid it is given: the digits that are shifted out are zeros.  So a numeral whose exact
     value is a double needs no bound on an error to be read as it.
  4. **Meanings** (`nearest_of_meaning`, `meaning_nearest`).  The two directions once more for `Float`, with
     what negation, comparison with zero and the first bit come to.
-/

namespace Lox.Number

open Float.Model (Format)
open Float.Model.UnpackedFloat

/-- The magnitude `m * 2 ^ q` as the format has it: all digits taken, or the smallest exponent. -/
structure Canonical (m : Nat) (q : Int) : Prop where
  pos : 0 < m
  small : m < 2 ^ 53
  low : -1074 ≤ q
  high : q ≤ 971
  full : 2 ^ 52 ≤ m ∨ q = -1074

/-! ## Fields

  What is written into the fields is read out of them, and a number is nothing but its fields. -/

section Fields

variable {spec : Format} {sign : Sign} {exponent : BitVec spec.exponentBits}
  {mantissa : BitVec spec.mantissaBitsWithoutImplicit}

/-- The sign field of what is put together from three fields. -/
theorem unpackSign_packComponents :
    unpackSign (packComponents spec sign exponent mantissa) = sign.toBitVec := by
  refine BitVec.eq_of_getLsbD_eq fun i hi => ?_
  obtain rfl : i = 0 := by omega
  simp [unpackSign, packComponents, BitVec.getLsbD_append, BitVec.getElem_append]

/-- The sign is read back from its bit. -/
theorem sign_ofBitVec_toBitVec (sign : Sign) : Sign.ofBitVec sign.toBitVec = sign := by
  cases sign <;> rfl

/-- A bit is read back from the sign that it stands for. -/
theorem sign_toBitVec_ofBitVec (b : BitVec 1) : (Sign.ofBitVec b).toBitVec = b := by
  rcases BitVec.eq_zero_or_eq_one b with rfl | rfl <;> rfl

/-- A packed number is its three fields. -/
theorem packComponents_fields (b : BitVec spec.numBits) :
    packComponents spec (Sign.ofBitVec (unpackSign b)) (unpackExponent b) (unpackMantissa b) = b := by
  have hm := spec.hm
  have he := spec.he
  rw [packComponents, sign_toBitVec_ofBitVec]
  refine BitVec.eq_of_getLsbD_eq fun i hi => ?_
  simp only [BitVec.getLsbD_append, unpackMantissa, unpackExponent, unpackSign, BitVec.getLsbD_cast,
    BitVec.getLsbD_extractLsb]
  by_cases hlow : i < spec.mantissaBitsWithoutImplicit
  · have hinside : i < spec.mantissaBitsWithoutImplicit - 1 + 1 := by omega
    simp [hlow, hinside]
  · by_cases hmiddle : i - spec.mantissaBitsWithoutImplicit < spec.exponentBits
    · have hplace : spec.mantissaBitsWithoutImplicit + (i - spec.mantissaBitsWithoutImplicit) = i := by omega
      have hinside : i - spec.mantissaBitsWithoutImplicit <
          spec.mantissaBitsWithoutImplicit + spec.exponentBits - 1 - spec.mantissaBitsWithoutImplicit + 1 := by
        omega
      simp [hlow, hmiddle, hplace, hinside]
    · have hlast : i = spec.mantissaBitsWithoutImplicit + spec.exponentBits := by omega
      subst hlast
      simp

end Fields

/-- The mantissa of a number with all digits taken, from the field that leaves out the first. -/
theorem toNat_leading (mantissa : BitVec 52) : (1#1 ++ mantissa).toNat = 2 ^ 52 + mantissa.toNat := by
  rw [BitVec.toNat_append, ← Nat.shiftLeft_add_eq_or_of_lt mantissa.isLt]
  simp [Nat.shiftLeft_eq]

/-- **A number taken apart is one that the format has.** By the cases of the exponent field: with zero the
    exponent is the smallest one and the first digit is missing, otherwise all digits are taken. -/
theorem canonical_of_unpack {f : Float.Model} {sign : Sign} {m : Nat} {q : Int} {hm : 0 < m}
    (h : f.unpack = .finite sign m q hm) : Canonical m q := by
  have hsmall : (@unpackMantissa .binary64 f.toBits.toBitVec).toNat < 2 ^ 52 := BitVec.isLt _
  have hlast : (@unpackExponent .binary64 f.toBits.toBitVec).toNat < 2 ^ 11 := BitVec.isLt _
  -- The number is finite, so the exponent field is not all ones.
  unfold Float.Model.unpack unpack at h
  dsimp only at h
  split at h
  · split at h <;> cases h
  · rename_i hfinite
    have hfinite : (@unpackExponent .binary64 f.toBits.toBitVec).toNat ≠ 2047 :=
      fun hn => hfinite (BitVec.eq_of_toNat_eq hn)
    split at h
    · rename_i hzero
      split at h
      · cases h
      · injection h with _ hmantissa hq
        rw [hzero] at hq
        have hq : q = -1074 := hq.symm
        exact ⟨hm, by omega, by omega, by omega, .inr hq⟩
    · rename_i hnonzero
      have hnonzero : (@unpackExponent .binary64 f.toBits.toBitVec).toNat ≠ 0 :=
        fun hn => hnonzero (BitVec.eq_of_toNat_eq hn)
      injection h with _ hmantissa hq
      have hmantissa := (toNat_leading _).symm.trans hmantissa
      have hq : ((@unpackExponent .binary64 f.toBits.toBitVec).toNat : Int) - 1075 = q := hq
      exact ⟨hm, by omega, by omega, by omega, .inl (by omega)⟩

variable {sign : Sign} {m : Nat} {q : Int}

/-- How many digits a magnitude has, if they are all taken. -/
theorem Canonical.log2_full (h : Canonical m q) :
    m.log2 + 1 = Format.binary64.mantissaBits ↔ 2 ^ 52 ≤ m := by
  show m.log2 + 1 = 53 ↔ 2 ^ 52 ≤ m
  have hlow := Nat.log2_self_le h.pos.ne'
  have hlt := (Nat.log2_lt h.pos.ne').mpr h.small
  constructor
  · intro hlog
    rwa [show m.log2 = 52 by omega] at hlow
  · intro hm
    have hle := (Nat.le_log2 h.pos.ne').mpr hm
    omega

/-- How a magnitude with all digits taken is packed. -/
theorem pack_full (h : Canonical m q) (hfull : 2 ^ 52 ≤ m) :
    pack .binary64 (.finite sign m q h.pos) =
      packComponents .binary64 sign (BitVec.ofNat 11 (q + 1075).toNat) (BitVec.ofNat 52 m) := by
  have hlow := h.low
  have hhigh := h.high
  have hexponent : (q + (Format.binary64.exponentBias : Int) + (52 : Nat)).toNat = (q + 1075).toNat := by
    show (q + 1023 + 52).toNat = _
    omega
  unfold pack
  dsimp only
  rw [hexponent, if_neg (by show ¬ 2 ^ 11 ≤ (q + 1075).toNat + 1; omega), if_pos (h.log2_full.mpr hfull)]

/-- How a magnitude with fewer digits is packed. -/
theorem pack_partial (h : Canonical m q) (hpartial : m < 2 ^ 52) :
    pack .binary64 (.finite sign m q h.pos) = packComponents .binary64 sign 0#11 (BitVec.ofNat 52 m) := by
  have hlow := h.low
  have hhigh := h.high
  have hexponent : (q + (Format.binary64.exponentBias : Int) + (52 : Nat)).toNat = (q + 1075).toNat := by
    show (q + 1023 + 52).toNat = _
    omega
  unfold pack
  dsimp only
  rw [hexponent, if_neg (by show ¬ 2 ^ 11 ≤ (q + 1075).toNat + 1; omega),
    if_neg (fun hlog => Nat.not_le_of_lt hpartial (h.log2_full.mp hlog))]

/-- **What is put together is taken apart again.** A magnitude with fewer digits is packed with the exponent
    field zero and a mantissa that is not, any other with an exponent field strictly between the extremes. -/
theorem unpack_pack (h : Canonical m q) :
    (Float.Model.pack (.finite sign m q h.pos)).unpack = .finite sign m q h.pos := by
  have hlow := h.low
  have hhigh := h.high
  have hsmall := h.small
  show unpack .binary64 (pack .binary64 (.finite sign m q h.pos)) = _
  rcases Nat.lt_or_ge m (2 ^ 52) with hpartial | hfull
  · have hmantissa : (BitVec.ofNat 52 m).toNat = m := by
      rw [BitVec.toNat_ofNat, Nat.mod_eq_of_lt hpartial]
    have hnonzero : BitVec.ofNat 52 m ≠ 0#52 := by
      intro hz
      rw [hz] at hmantissa
      exact h.pos.ne hmantissa
    obtain rfl : q = -1074 := h.full.resolve_left (Nat.not_le_of_lt hpartial)
    rw [pack_partial h hpartial]
    unfold unpack
    simp only [unpackMantissa_packComponents, unpackExponent_packComponents, unpackSign_packComponents,
      sign_ofBitVec_toBitVec]
    rw [if_neg (by decide), if_pos trivial, dif_neg hnonzero]
    congr 1
  · have hmantissa : (1#1 ++ BitVec.ofNat 52 m).toNat = m := by
      rw [toNat_leading, BitVec.toNat_ofNat]
      omega
    have hexponent : (BitVec.ofNat 11 (q + 1075).toNat).toNat = (q + 1075).toNat := by
      rw [BitVec.toNat_ofNat]
      omega
    have hfinite : BitVec.ofNat 11 (q + 1075).toNat ≠ -1#11 := by
      intro hn
      rw [hn] at hexponent
      have hexponent : 2047 = (q + 1075).toNat := hexponent
      omega
    have hnonzero : BitVec.ofNat 11 (q + 1075).toNat ≠ 0#11 := by
      intro hz
      rw [hz] at hexponent
      have hexponent : 0 = (q + 1075).toNat := hexponent
      omega
    rw [pack_full h hfull]
    unfold unpack
    simp only [unpackMantissa_packComponents, unpackExponent_packComponents, unpackSign_packComponents,
      sign_ofBitVec_toBitVec]
    rw [if_neg hfinite, if_neg hnonzero]
    congr 1
    rw [hexponent]
    show ((q + 1075).toNat : Int) - 1075 = q
    omega

/-- **What is taken apart is put together again**, bit for bit. There is one pattern of bits that stands for
    no number, so that it comes back as well. -/
theorem pack_unpack (f : Float.Model) : Float.Model.pack f.unpack = f := by
  obtain ⟨⟨b⟩, hvalid⟩ := f
  have hfields := @packComponents_fields .binary64 b
  suffices hbits : pack .binary64 (unpack .binary64 b) = b by
    show Float.Model.mk (UInt64.ofBitVec (pack .binary64 (unpack .binary64 b))) _ = _
    simp only [hbits]
  -- Named, so that the cases of taking apart can be told before it is put together.
  generalize hunpacked : unpack .binary64 b = number
  have hcanonical := fun sign m q hm (h : number = .finite sign m q hm) =>
    @canonical_of_unpack ⟨⟨b⟩, hvalid⟩ sign m q hm (hunpacked.trans h)
  unfold unpack at hunpacked
  dsimp only at hunpacked
  split at hunpacked
  · rename_i hlast
    split at hunpacked
    · rename_i hmantissa
      subst hunpacked
      rw [hlast, hmantissa] at hfields
      exact hfields
    · rename_i hmantissa
      subst hunpacked
      exact (hvalid.eq_packedNaN hlast hmantissa).symm
  · split at hunpacked
    · rename_i hzero
      split at hunpacked
      · rename_i hmantissa
        subst hunpacked
        rw [hzero, hmantissa] at hfields
        exact hfields
      · subst hunpacked
        have h := hcanonical _ _ _ _ rfl
        have hpartial : (@unpackMantissa .binary64 b).toNat < 2 ^ 52 := BitVec.isLt _
        rw [hzero] at hfields
        rw [pack_partial h hpartial, BitVec.ofNat_toNat, BitVec.setWidth_eq]
        exact hfields
    · subst hunpacked
      have h := hcanonical _ _ _ _ rfl
      have hleading := toNat_leading (@unpackMantissa .binary64 b)
      have hfull : 2 ^ 52 ≤ (1#1 ++ @unpackMantissa .binary64 b).toNat := by omega
      have hexponent : (((@unpackExponent .binary64 b).toNat : Int) - 1075 + 1075).toNat =
          (@unpackExponent .binary64 b).toNat := by omega
      have hmantissa : BitVec.ofNat 52 (1#1 ++ @unpackMantissa .binary64 b).toNat =
          @unpackMantissa .binary64 b := by
        refine BitVec.eq_of_toNat_eq ?_
        have hlt : (@unpackMantissa .binary64 b).toNat < 2 ^ 52 := BitVec.isLt _
        rw [BitVec.toNat_ofNat, hleading]
        omega
      rw [pack_full h hfull, hmantissa]
      show packComponents .binary64 _ (BitVec.ofNat 11
        (((@unpackExponent .binary64 b).toNat : Int) - 1075 + 1075).toNat) _ = b
      rw [hexponent, BitVec.ofNat_toNat, BitVec.setWidth_eq]
      exact hfields

/-! ## Rounding

  Rounding shifts a magnitude to the exponent that is aimed at.  Where only zeros are shifted out nothing is
  rounded. -/

/-- The exponent that is aimed at, for a number with its first digit at a given place. -/
theorem targetExponent_eq (place : Int) :
    Format.binary64.targetExponent place = max (place - 53) (-1074) := rfl

/-- The exponent that a magnitude of the format has is the one that is aimed at. -/
theorem Canonical.target (h : Canonical m q) :
    Format.binary64.targetExponent (Float.Model.totalExponent m q) = q := by
  have hlow := h.low
  have hlt := (Nat.log2_lt h.pos.ne').mpr h.small
  rw [targetExponent_eq, Float.Model.totalExponent]
  rcases h.full with hfull | hq
  · have hle := (Nat.le_log2 h.pos.ne').mpr hfull
    omega
  · omega

/-- Multiplying by two adds a digit. -/
theorem log2_mul_two_pow (hm : 0 < m) (k : Nat) : (m * 2 ^ k).log2 = m.log2 + k := by
  induction k with
  | zero => simp
  | succ k ih =>
    have hne : m * 2 ^ k ≠ 0 := (Nat.mul_pos hm (Nat.two_pow_pos k)).ne'
    rw [pow_succ', Nat.mul_left_comm, Nat.log2_two_mul hne, ih, Nat.add_assoc]

/-- The place of the first digit is the same on a finer grid. -/
theorem totalExponent_finer (hm : 0 < m) (k : Nat) :
    Float.Model.totalExponent (m * 2 ^ k) (q - k) = Float.Model.totalExponent m q := by
  unfold Float.Model.totalExponent
  rw [log2_mul_two_pow hm]
  omega

/-- Shifting zeros out loses nothing. -/
theorem shiftRight_exact (m k : Nat) :
    (⟨m * 2 ^ k, false, false⟩ : ExtendedMantissa) >>> k = ⟨m, false, false⟩ := by
  show k.repeat ExtendedMantissa.shiftRightOne ⟨m * 2 ^ k, false, false⟩ = _
  induction k generalizing m with
  | zero => simp [Nat.repeat]
  | succ k ih =>
    have htwice : m * 2 ^ (k + 1) = (2 * m) * 2 ^ k := by ring
    rw [Nat.repeat, htwice, ih]
    simp [ExtendedMantissa.shiftRightOne]

/-- A magnitude on a finer grid is shifted back to its own exponent. -/
theorem shiftToTargetExponent_exact (h : Canonical m q) (k : Nat) :
    shiftToTargetExponent .binary64 (m * 2 ^ k) (q - k) .exact = (⟨m, false, false⟩, q) := by
  have hshift : (q - (q - (k : Int))).toNat = k := by omega
  unfold shiftToTargetExponent shiftToExponent
  rw [totalExponent_finer h.pos, h.target]
  dsimp only [ExtendedMantissa.ofMantissaAndAccuracy]
  rw [hshift, shiftRight_exact]
  congr 1
  omega

/-- **A number that the format has is rounded to itself**, on whatever finer grid it is given. -/
theorem roundWithAccuracy_exact (h : Canonical m q) (k : Nat) :
    roundWithAccuracy .binary64 sign (m * 2 ^ k) (q - k) .exact = .finite sign m q h.pos := by
  have hagain := shiftToTargetExponent_exact h 0
  rw [pow_zero, Nat.mul_one, Nat.cast_zero, Int.sub_zero] at hagain
  have hrounded : (⟨m, false, false⟩ : ExtendedMantissa).roundedMantissa = m := rfl
  unfold roundWithAccuracy
  simp only [shiftToTargetExponent_exact h k, hrounded, hagain]
  exact dif_neg h.pos.ne'

/-- The same on the grid of the magnitude itself. -/
theorem round_exact (h : Canonical m q) :
    Float.Model.UnpackedFloat.round .binary64 sign m q = .finite sign m q h.pos := by
  have hround := @roundWithAccuracy_exact sign _ _ h 0
  rw [pow_zero, Nat.mul_one, Nat.cast_zero, Int.sub_zero] at hround
  unfold Float.Model.UnpackedFloat.round decreaseExponent
  simp only [h.target, Int.sub_self, Int.toNat_zero, Nat.shiftLeft_zero, Nat.cast_zero, Int.sub_zero]
  exact hround

/-! ## Meanings -/

variable {x y : Float} {negative : Bool}

/-- Doubles with the same bits are the same. -/
theorem eq_of_toBits (h : x.toBits = y.toBits) : x = y := by
  obtain ⟨⟨bits, _⟩⟩ := x
  obtain ⟨⟨bits', _⟩⟩ := y
  obtain rfl : bits = bits' := h
  rfl

/-- The sign with a name of its own. -/
def signOf (negative : Bool) : Sign := if negative then .negative else .positive

/-- A sign is named by whether it is the negative one. -/
theorem signOf_beq (sign : Sign) : signOf (sign == .negative) = sign := by
  cases sign <;> rfl

/-- Whether a named sign is the negative one is its name. -/
theorem beq_signOf (negative : Bool) : (signOf negative == .negative) = negative := by
  cases negative <;> rfl

/-- How a finite double is taken apart. -/
theorem unpack_of_meaning (h : meaning x = .finite negative m q) :
    x.toModel.unpack = .zero (signOf negative) ∧ m = 0 ∧ q = 0 ∨
      ∃ hm : 0 < m, x.toModel.unpack = .finite (signOf negative) m q hm ∧ Canonical m q := by
  unfold meaning at h
  split at h
  · cases h
  · cases h
  · rename_i sign hzero
    cases h
    rw [signOf_beq]
    exact .inl ⟨hzero, rfl, rfl⟩
  · rename_i sign m q hm hfinite
    cases h
    rw [signOf_beq]
    exact .inr ⟨hm, hfinite, canonical_of_unpack hfinite⟩

/-- A finite double is zero, or it has a magnitude in the range of the format. -/
theorem canonical_of_meaning (h : meaning x = .finite negative m q) :
    m = 0 ∧ q = 0 ∨ Canonical m q := by
  rcases unpack_of_meaning h with ⟨-, hm, hq⟩ | ⟨-, -, hcanonical⟩
  · exact .inl ⟨hm, hq⟩
  · exact .inr hcanonical

/-- How a magnitude of the format is put together. -/
theorem nearest_canonical (h : Canonical m q) (negative : Bool) :
    nearest negative m q = .ofModel (.pack (.finite (signOf negative) m q h.pos)) := by
  show Float.ofModel (.pack (if m = 0 then .zero (signOf negative) else
    .round .binary64 (signOf negative) m q)) = _
  rw [if_neg h.pos.ne', round_exact h]

/-- **A finite double is the one nearest to its own magnitude.** -/
theorem nearest_of_meaning (h : meaning x = .finite negative m q) : nearest negative m q = x := by
  have hpacked := congrArg Float.ofModel (pack_unpack x.toModel)
  rcases unpack_of_meaning h with ⟨hzero, rfl, rfl⟩ | ⟨hm, hfinite, hcanonical⟩
  · rw [hzero] at hpacked
    exact hpacked
  · rw [hfinite] at hpacked
    rw [nearest_canonical hcanonical]
    exact hpacked

/-- **Of a magnitude of the format nothing is lost.** -/
theorem meaning_nearest (h : Canonical m q) (negative : Bool) :
    meaning (nearest negative m q) = .finite negative m q := by
  rw [nearest_canonical h, meaning]
  show (match (Float.Model.pack (.finite (signOf negative) m q h.pos)).unpack with | _ => _) = _
  rw [unpack_pack h]
  exact congrArg (Meaning.finite · m q) (beq_signOf negative)

/-- Zero has no digits. -/
theorem meaning_zero (negative : Bool) : meaning (nearest negative 0 0) = .finite negative 0 0 := by
  cases negative <;> decide +kernel

/-- The same magnitude with the other sign. -/
theorem meaning_neg (h : meaning x = .finite negative m q) : meaning (-x) = .finite (!negative) m q := by
  have hneg : -x = nearest (!negative) m q := by
    show Float.ofModel (.pack x.toModel.unpack.neg) = _
    rcases unpack_of_meaning h with ⟨hzero, rfl, rfl⟩ | ⟨hm, hfinite, hcanonical⟩
    · rw [hzero]
      cases negative <;> rfl
    · rw [hfinite, nearest_canonical hcanonical]
      cases negative <;> rfl
  rw [hneg]
  rcases canonical_of_meaning h with ⟨rfl, rfl⟩ | hcanonical
  · exact meaning_zero _
  · exact meaning_nearest hcanonical _

/-- A double is finite exactly if it has a magnitude. -/
theorem isFinite_iff : x.isFinite = true ↔ ∃ negative m q, meaning x = .finite negative m q := by
  show x.toModel.unpack.isFinite = true ↔ _
  unfold meaning
  cases x.toModel.unpack with
  | infinity sign => exact ⟨nofun, nofun⟩
  | notANumber => exact ⟨nofun, nofun⟩
  | zero sign => exact ⟨fun _ => ⟨_, _, _, rfl⟩, fun _ => rfl⟩
  | finite sign m q hm => exact ⟨fun _ => ⟨_, _, _, rfl⟩, fun _ => rfl⟩

/-- One double is below another. -/
theorem lt_iff : x < y ↔ x.toModel.unpack.compare y.toModel.unpack = some .lt := by
  have hlt : x < y ↔ x.toModel.unpack.lt y.toModel.unpack = true := by
    show decide (x.toModel < y.toModel) = true ↔ _
    rw [decide_eq_true_iff]
    exact Iff.rfl
  rw [hlt, Float.Model.UnpackedFloat.lt]
  cases x.toModel.unpack.compare y.toModel.unpack with
  | none => exact ⟨nofun, nofun⟩
  | some order => cases order <;> decide

/-- A finite double is below zero exactly if it has the sign and digits. -/
theorem neg_iff (h : meaning x = .finite negative m q) : x < 0 ↔ negative = true ∧ 0 < m := by
  have hzero : (0 : Float).toModel.unpack = .zero .positive := rfl
  rw [lt_iff, hzero]
  rcases unpack_of_meaning h with ⟨hunpack, rfl, rfl⟩ | ⟨hm, hunpack, -⟩
  · rw [hunpack]
    exact ⟨nofun, fun h => absurd h.2 (Nat.lt_irrefl 0)⟩
  · rw [hunpack]
    cases negative
    · exact ⟨nofun, nofun⟩
    · exact ⟨fun _ => ⟨rfl, hm⟩, fun _ => rfl⟩

/-- The first bit of a double. -/
theorem unpackSign_eq_zero (bits : UInt64) :
    @unpackSign .binary64 bits.toBitVec = 0#1 ↔ bits.toNat < 2 ^ 63 := by
  have hlt := bits.toNat_lt
  have hfield : (@unpackSign .binary64 bits.toBitVec).toNat = bits.toNat / 2 ^ 63 % 2 := by
    simp [unpackSign, Nat.shiftRight_eq_div_pow]
  rw [← BitVec.toNat_inj, hfield]
  show bits.toNat / 2 ^ 63 % 2 = 0 ↔ _
  omega

/-- The sign of a finite double is its first bit. -/
theorem positive_iff (h : meaning x = .finite negative m q) :
    negative = false ↔ x.toBits.toNat < 2 ^ 63 := by
  have hsign : Sign.ofBitVec (@unpackSign .binary64 x.toBits.toBitVec) = signOf negative := by
    have hunpack := unpack_of_meaning h
    rw [Float.Model.unpack, unpack] at hunpack
    dsimp only at hunpack
    -- Whatever branch takes a finite number apart, the sign is the field.
    rcases hunpack with ⟨hunpack, -⟩ | ⟨_, hunpack, -⟩
    · split at hunpack
      · split at hunpack <;> cases hunpack
      · split at hunpack
        · split at hunpack
          · injection hunpack
          · cases hunpack
        · cases hunpack
    · split at hunpack
      · split at hunpack <;> cases hunpack
      · split at hunpack
        · split at hunpack
          · cases hunpack
          · injection hunpack
        · injection hunpack
  rw [← unpackSign_eq_zero]
  rcases BitVec.eq_zero_or_eq_one (@unpackSign .binary64 x.toBits.toBitVec) with hbit | hbit
  · rw [hbit] at hsign ⊢
    cases negative
    · exact iff_of_true rfl rfl
    · cases hsign
  · rw [hbit] at hsign ⊢
    cases negative
    · cases hsign
    · exact iff_of_false nofun (by decide)

end Lox.Number
