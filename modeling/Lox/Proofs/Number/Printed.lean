import Mathlib.Algebra.Order.Field.Rat
import Mathlib.Tactic.Positivity
import Mathlib.Tactic.FieldSimp
import Lox.Proofs.Number.Numerals

/-!
  Printed numbers are read back.

  What `print` writes of a number can be put into a source again.  The text of a finite double without sign
  is a number literal, and reading it gives the double again, bit for bit, on either of the two ways in
  which it is written.

  1. **Texts without a sign** (`text_lexeme`).  Either way the text is the numeral of a number that is read as
     the double (`text_numeral`), so that it is one lexeme; and a lexeme on its own is one token
     (`items_numeral`).
  2. **Whole numbers** (`toInt64_exact`, `text_whole`).  A whole number below 10^15 goes through an integer of
     64 bits.  Cutting off what is behind the point leaves it as it is (`roundToInt_whole`), and it lies
     within the bounds of the integer, so that nothing of it is lost.
  3. **Signs** (`text_neg`).  A minus sign only comes before the text of the opposite double.  It belongs to no
     numeral (`head_ne_minus`), so that the sign is read off a text.
  4. **Different doubles** (`text_eq_iff`).  Two finite doubles have the same text only if they are the same,
     or both zero: the numerals behind the signs are the same lexeme, and a lexeme has one kind.

  `PrintsBack` says all of this of one double, and `printed_numbers_read_back` proves it of every finite one.
-/

namespace Lox.Number

open Float.Model.UnpackedFloat

variable {x y : Float} {negative : Bool} {m n : Nat} {q : Int}

/-- What a finite double is worth. -/
def value (x : Float) : ℚ :=
  match meaning x with
  | .finite negative m q => (if negative then -1 else 1) * (m * 2 ^ q)
  | _ => 0

/-- What a double is worth, from its sign and its magnitude. -/
theorem value_of_meaning (h : meaning x = .finite negative m q) :
    value x = (if negative then -1 else 1) * (m * 2 ^ q) := by
  rw [value, h]

/-- A double is worth nothing exactly if it has no digits. -/
theorem value_eq_zero (h : meaning x = .finite negative m q) : value x = 0 ↔ m = 0 := by
  have hpow : (2 : ℚ) ^ q ≠ 0 := (zpow_pos (by decide) q).ne'
  rw [value_of_meaning h]
  cases negative <;> simp [hpow]

/-! ## Texts without a sign -/

/-- The text of a magnitude is the numeral of a number that is read as the double with it: the whole number
    itself if it is below 10^15, otherwise the shortest decimal. -/
theorem text_numeral (h : Canonical m q) : ∃ n places, ofNumeral n places = nearest false m q ∧
    ∀ negative x, meaning x = .finite negative m q →
      text x = signText negative ++ numeralText n places := by
  by_cases hfast : ∃ n, whole? m q = some n ∧ n < 1000000000000000
  · obtain ⟨n, hwhole, hsmall⟩ := hfast
    -- Zero has no digits, so a canonical magnitude is not it, and its sign is written.
    have hn : n ≠ 0 := by
      rintro rfl
      rcases whole?_eq_some.mp hwhole with ⟨k, -, hm⟩ | ⟨k, -, -, rfl⟩
      · exact (Nat.mul_pos h.pos (Nat.two_pow_pos k)).ne hm
      · exact h.pos.ne (Nat.zero_mul _).symm
    refine ⟨n, 0, ofNumeral_whole h hwhole, fun negative x hx => ?_⟩
    have hsign : (negative && decide (n ≠ 0)) = negative := by
      rw [decide_eq_true hn, Bool.and_true]
    unfold text
    simp only [hx, hwhole]
    rw [if_pos hsmall, hsign]
    rfl
  · refine ⟨(shortest m q .up).numeral.1, (shortest m q .up).numeral.2, shortest_toFloat h .up,
      fun negative x hx => ?_⟩
    unfold text
    simp only [hx]
    split
    · rename_i n hwhole
      rw [if_neg fun hsmall => hfast ⟨n, hwhole, hsmall⟩]
      rfl
    · rfl

/-- Both zeros have the same text. -/
theorem text_zero (h : meaning x = .finite negative 0 0) : text x = "0" := by
  unfold text
  rw [h]
  cases negative <;> rfl

/-- **The text of a double without a sign is a lexeme for it**, and so is that of zero in any case. -/
theorem text_lexeme (h : meaning x = .finite negative m q) (hsign : negative = false ∨ m = 0) :
    IsLexeme (.number (nearest false m q)) (text x).toList := by
  rcases canonical_of_meaning h with ⟨rfl, rfl⟩ | hcanonical
  · rw [text_zero h]
    exact numeralText_lexeme 0 0
  · obtain ⟨n, places, hread, htext⟩ := text_numeral hcanonical
    obtain rfl : negative = false := hsign.resolve_right hcanonical.pos.ne'
    rw [htext false x h, ← hread]
    exact String.empty_append ▸ numeralText_lexeme n places

/-- The text of a double below zero is a minus sign and then the text of the opposite double. -/
theorem text_neg (h : meaning x = .finite true m q) (hm : 0 < m) : text x = "-" ++ text (-x) := by
  rcases canonical_of_meaning h with ⟨rfl, -⟩ | hcanonical
  · exact absurd hm (Nat.lt_irrefl 0)
  · obtain ⟨n, places, -, htext⟩ := text_numeral hcanonical
    rw [htext true x h, htext false (-x) (meaning_neg h)]
    exact congrArg ("-" ++ ·) String.empty_append.symm

/-- A numeral is made of digits and a point. -/
theorem mem_numeral {lexeme : List Char} (h : IsLexeme (.number x) lexeme) :
    ∀ c ∈ lexeme, c.isDigit = true ∨ c = '.' := by
  intro c hc
  cases h with
  | whole hdigits => exact .inl (hdigits.2 c hc)
  | fraction hdigits hplaces =>
    rcases List.mem_append.mp hc with hc | hc
    · exact .inl (hdigits.2 c hc)
    · rcases List.mem_cons.mp hc with rfl | hc
      · exact .inr rfl
      · exact .inl (hplaces.2 c hc)

/-- A numeral is one token, whatever line it is on. -/
theorem items_numeral {s : String} (h : IsLexeme (.number x) s.toList) :
    items s = [.token ⟨.number x, s, 1⟩, .token (.finish 1)] := by
  have hline : s.toList.count '\n' = 0 := by
    rw [List.count_eq_zero]
    intro hmem
    rcases mem_numeral h _ hmem with hdigit | hpoint
    · exact absurd hdigit (by decide)
    · exact absurd hpoint (by decide)
  have hend : SetApart [] := nofun
  have hread := itemsAt_lexeme h hend 1
  rw [List.append_nil, hline, String.ofList_toList] at hread
  exact hread

/-- A numeral has no sign. -/
theorem head_ne_minus {text : List Char} (h : IsLexeme (.number x) ('-' :: text)) : False := by
  rcases mem_numeral h '-' List.mem_cons_self with hdigit | hpoint
  · exact absurd hdigit (by decide)
  · exact absurd hpoint (by decide)

/-! ## Whole numbers -/

/-- When a magnitude is worth a whole number. -/
theorem whole?_of_worth (h : (n : ℚ) = m * 2 ^ q) : whole? m q = some n := by
  rw [whole?_eq_some]
  rcases le_or_gt 0 q with hq | hq
  · obtain ⟨k, rfl⟩ := Int.eq_ofNat_of_zero_le hq
    refine .inl ⟨k, rfl, ?_⟩
    rw [zpow_natCast] at h
    exact_mod_cast h
  · obtain ⟨k, rfl⟩ : ∃ k : Nat, q = -(k : Int) := ⟨(-q).toNat, by omega⟩
    refine .inr ⟨k, rfl, by omega, ?_⟩
    rw [zpow_neg, zpow_natCast, ← div_eq_mul_inv, eq_div_iff (pow_ne_zero k two_ne_zero)] at h
    exact_mod_cast h.symm

/-- An integer that a double is worth is its magnitude with its sign. -/
theorem whole?_of_value (h : meaning x = .finite negative m q) {z : Int} (hz : value x = z) :
    whole? m q = some z.natAbs ∧ z = if negative then -(z.natAbs : Int) else z.natAbs := by
  have hworth : (0 : ℚ) ≤ m * 2 ^ q := mul_nonneg (Nat.cast_nonneg m) (zpow_nonneg (by decide) q)
  rw [value_of_meaning h] at hz
  cases negative with
  | false =>
    rw [if_neg Bool.false_ne_true, one_mul] at hz
    have hz0 : 0 ≤ z := by exact_mod_cast hz ▸ hworth
    obtain ⟨n, rfl⟩ := Int.eq_ofNat_of_zero_le hz0
    exact ⟨whole?_of_worth (by exact_mod_cast hz.symm), rfl⟩
  | true =>
    rw [if_pos rfl, neg_one_mul, neg_eq_iff_eq_neg] at hz
    have hz0 : 0 ≤ -z := by exact_mod_cast hz ▸ hworth
    obtain ⟨n, hn⟩ := Int.eq_ofNat_of_zero_le hz0
    obtain rfl : z = -(n : Int) := by omega
    refine ⟨whole?_of_worth ?_, ?_⟩
    · rw [Int.natAbs_neg, Int.natAbs_natCast, hz]
      push_cast
      exact (neg_neg _).symm
    · rw [Int.natAbs_neg, Int.natAbs_natCast]
      rfl

/-- Cutting off what is behind the point leaves a whole number as it is. -/
theorem roundToInt_whole {sign : Sign} (h : whole? m q = some n) : roundToInt sign m q = sign.apply n := by
  unfold roundToInt decreaseExponent shiftToExponent
  rcases whole?_eq_some.mp h with ⟨k, rfl, rfl⟩ | ⟨k, rfl, hk, rfl⟩
  · have hup : ((k : Int) - 0).toNat = k := by omega
    have hdown : (0 - ((k : Int) - k)).toNat = 0 := by omega
    dsimp only [ExtendedMantissa.ofMantissaAndAccuracy]
    rw [hup, hdown, Nat.shiftLeft_eq]
    rfl
  · have hup : (-(k : Int) - 0).toNat = 0 := by omega
    have hdown : (0 - (-(k : Int) - (0 : Nat))).toNat = k := by omega
    dsimp only [ExtendedMantissa.ofMantissaAndAccuracy]
    rw [hup, hdown, Nat.shiftLeft_zero, shiftRight_exact]

/-- **A whole number below 10^15 is held exactly by an integer of 64 bits**: it is neither cut off behind the
    point nor clamped to the range. -/
theorem toInt64_exact (h : meaning x = .finite negative m q) (hwhole : whole? m q = some n)
    (hn : n < 10 ^ 15) : x.toModel.toInt64.toInt = if negative then -(n : Int) else n := by
  have hint : x.toModel.unpack.toInt Int64.minValue.toInt Int64.maxValue.toInt =
      if negative then -(n : Int) else n := by
    rcases unpack_of_meaning h with ⟨hunpack, rfl, rfl⟩ | ⟨hm, hunpack, -⟩
    · have hzero : n = 0 := (Option.some.inj (hwhole.symm.trans (show whole? 0 0 = some 0 from rfl)))
      rw [hunpack, hzero]
      cases negative <;> rfl
    · rw [hunpack, toInt, roundToInt_whole hwhole]
      cases negative <;> rfl
  show (Int64.ofIntClamp (x.toModel.unpack.toInt Int64.minValue.toInt Int64.maxValue.toInt)).toInt = _
  have hmin : Int64.minValue.toInt = -9223372036854775808 := rfl
  have hmax : Int64.maxValue.toInt = 9223372036854775807 := rfl
  rw [hint, Int64.toInt_ofIntClamp]
  · rw [hmin]
    split <;> omega
  · rw [hmax]
    split <;> omega

/-- The text of an integer is that of its absolute value behind its sign. -/
theorem toString_int (n : Nat) (negative : Bool) :
    toString (if negative then -(n : Int) else n) = signText (negative && n ≠ 0) ++ toString n := by
  cases negative with
  | false => exact String.empty_append.symm
  | true =>
    cases n with
    | zero => rfl
    | succ n => rfl

/-- The text of a whole number below 10^15 is that of the integer. -/
theorem text_whole (h : meaning x = .finite negative m q) (hwhole : whole? m q = some n)
    (hn : n < 10 ^ 15) : text x = toString (if negative then -(n : Int) else n) := by
  have hfast : n < 1000000000000000 := hn
  unfold text
  simp only [h, hwhole]
  rw [if_pos hfast, toString_int]

/-! ## Doubles and their texts -/

/-- Magnitudes that are put together to the same double are the same. -/
theorem nearest_inj {m' : Nat} {q' : Int} (h : m = 0 ∧ q = 0 ∨ Canonical m q)
    (h' : m' = 0 ∧ q' = 0 ∨ Canonical m' q') (heq : nearest false m q = nearest false m' q') :
    m = m' ∧ q = q' := by
  have hmeaning : ∀ {m q}, m = 0 ∧ q = 0 ∨ Canonical m q →
      meaning (nearest false m q) = .finite false m q := by
    rintro m q (⟨rfl, rfl⟩ | h)
    · exact meaning_zero false
    · exact meaning_nearest h false
  have hsame := (hmeaning h).symm.trans ((congrArg meaning heq).trans (hmeaning h'))
  injection hsame with _ hm hq
  exact ⟨hm, hq⟩

/-- The sign in the text is that of a double below zero, and what comes behind it is read as the double
    with the same magnitude. -/
theorem text_signed (h : meaning x = .finite negative m q) :
    ∃ rest, text x = signText (negative && decide (0 < m)) ++ rest ∧
      IsLexeme (.number (nearest false m q)) rest.toList := by
  cases hsign : negative && decide (0 < m) with
  | false =>
    rw [Bool.and_eq_false_iff, decide_eq_false_iff_not, Nat.not_lt, Nat.le_zero] at hsign
    exact ⟨text x, String.empty_append.symm, text_lexeme h hsign⟩
  | true =>
    rw [Bool.and_eq_true, decide_eq_true_iff] at hsign
    obtain ⟨rfl, hm⟩ := hsign
    exact ⟨text (-x), text_neg h hm, text_lexeme (meaning_neg h) (.inl rfl)⟩

/-- **Two finite doubles with the same text are the same, or both zero.** -/
theorem text_eq_iff {negative' : Bool} {m' : Nat} {q' : Int} (h : meaning x = .finite negative m q)
    (h' : meaning y = .finite negative' m' q') : text x = text y ↔ x = y ∨ m = 0 ∧ m' = 0 := by
  constructor
  · intro htext
    obtain ⟨rest, hx, hlexeme⟩ := text_signed h
    obtain ⟨rest', hy, hlexeme'⟩ := text_signed h'
    rw [hx, hy] at htext
    have hlist := congrArg String.toList htext
    rw [String.toList_append, String.toList_append] at hlist
    -- A numeral does not begin with a minus sign, so both texts have one or neither has.
    have hboth : (negative && decide (0 < m)) = (negative' && decide (0 < m')) ∧
        rest.toList = rest'.toList := by
      cases hsign : negative && decide (0 < m) <;> cases hsign' : negative' && decide (0 < m') <;>
        rw [hsign, hsign'] at hlist
      · exact ⟨rfl, hlist⟩
      · have hlist : rest.toList = '-' :: rest'.toList := hlist
        exact (head_ne_minus (hlist ▸ hlexeme)).elim
      · have hlist : '-' :: rest.toList = rest'.toList := hlist
        exact (head_ne_minus (hlist ▸ hlexeme')).elim
      · exact ⟨rfl, (List.cons.inj hlist).2⟩
    obtain ⟨hsign, hrest⟩ := hboth
    -- The same lexeme has one kind, and so the same magnitude.
    have hkind := (hrest ▸ hlexeme).kind_unique hlexeme'
    injection hkind with hkind
    obtain ⟨rfl, rfl⟩ := nearest_inj (canonical_of_meaning h) (canonical_of_meaning h') hkind
    rcases Nat.eq_zero_or_pos m with hm | hm
    · exact .inr ⟨hm, hm⟩
    · rw [decide_eq_true hm, Bool.and_true, Bool.and_true] at hsign
      subst hsign
      exact .inl ((nearest_of_meaning h).symm.trans (nearest_of_meaning h'))
  · rintro (rfl | ⟨rfl, rfl⟩)
    · rfl
    · have hzero : ∀ {x : Float} {negative : Bool} {q : Int}, meaning x = .finite negative 0 q →
          text x = "0" := by
        intro x negative q h
        rcases canonical_of_meaning h with ⟨-, rfl⟩ | hcanonical
        · exact text_zero h
        · exact absurd hcanonical.pos (Nat.lt_irrefl 0)
      rw [hzero h, hzero h']

/-- How a finite double is printed. -/
structure PrintsBack (x : Float) : Prop where
  /-- Without a sign its text is read as one token with the same double, and then comes the end. -/
  reads : x.toBits.toNat < 2 ^ 63 →
    items (text x) = [.token ⟨.number x, text x, 1⟩, .token (.finish 1)]
  /-- A whole number below 10^15 is printed as the integer of 64 bits that it is turned into, and nothing
      of it is lost there. -/
  whole : ∀ z : Int, value x = z → z.natAbs < 10 ^ 15 →
    x.toModel.toInt64.toInt = z ∧ text x = toString x.toModel.toInt64.toInt
  /-- Below zero a minus sign comes before the text of the opposite double. -/
  negative : x < 0 → text x = "-" ++ text (-x)
  /-- No other finite double has the same text, but for the other zero. -/
  distinct : ∀ y : Float, y.isFinite = true → (text x = text y ↔ x = y ∨ value x = 0 ∧ value y = 0)
  /-- Both zeros have the same text. -/
  zero : value x = 0 → text x = "0"

/-- **Printed numbers are read back**, bit for bit, whether they are whole numbers that go through an
    integer or are printed with the fewest digits. -/
theorem printed_numbers_read_back (x : Float) (h : x.isFinite = true) : PrintsBack x := by
  -- A finite double has a sign and a magnitude; every field is about these.
  obtain ⟨negative, m, q, hx⟩ := isFinite_iff.mp h
  constructor
  case reads =>
    intro hbits
    obtain rfl := (positive_iff hx).mpr hbits
    have hlexeme := text_lexeme hx (.inl rfl)
    rw [nearest_of_meaning hx] at hlexeme
    exact items_numeral hlexeme
  case whole =>
    intro z hz hsmall
    obtain ⟨hwhole, hsign⟩ := whole?_of_value hx hz
    have hint := toInt64_exact hx hwhole hsmall
    exact ⟨hint.trans hsign.symm, (text_whole hx hwhole hsmall).trans (congrArg toString hint.symm)⟩
  case negative =>
    intro hneg
    obtain ⟨rfl, hm⟩ := (neg_iff hx).mp hneg
    exact text_neg hx hm
  case distinct =>
    intro y hy
    obtain ⟨negative', m', q', hy⟩ := isFinite_iff.mp hy
    rw [text_eq_iff hx hy, value_eq_zero hx, value_eq_zero hy]
  case zero =>
    intro hzero
    rcases canonical_of_meaning hx with ⟨rfl, rfl⟩ | hcanonical
    · exact text_zero hx
    · exact absurd ((value_eq_zero hx).mp hzero) hcanonical.pos.ne'

/-- The smallest double above zero, and the first whole number that is too large for the way through an
    integer. -/
theorem printed_numbers_read_back_extremes :
    (Float.ofBits 1).isFinite = true ∧ PrintsBack (Float.ofBits 1) ∧
    (Float.ofBits 0x430c6bf526340000).isFinite = true ∧ PrintsBack (Float.ofBits 0x430c6bf526340000) := by
  have hleast : (Float.ofBits 1).isFinite = true := by decide +kernel
  have hlarge : (Float.ofBits 0x430c6bf526340000).isFinite = true := by decide +kernel
  exact ⟨hleast, printed_numbers_read_back _ hleast, hlarge, printed_numbers_read_back _ hlarge⟩

end Lox.Number
