import Mathlib.Data.String.Basic
import Lox.Text.Utf8

/-!
  Characters as bytes, and bytes as characters.

  The bytes of characters are read as these characters again (`Utf8.read_bytes`), and a reader that
  never refuses but puts a replacement character where no character can be read has nothing to replace
  in what the strict reader accepts (`Utf8.readLossy_of_read`).  Each byte below 0x80 is a character of
  its own, and no other character has such a byte (`Utf8.byte_high`).

  Both readers go by the same table of first bytes, and both read one character at a time.  So the two
  facts are inductions over the text and over the bytes, with one lemma for a step of the strict reader
  on the bytes of a character.  There the four lengths are told apart, and for each of them it is checked
  that the first byte lets exactly these bytes follow and that the bits of the parts add up to the character.
-/

namespace Lox.Text

/-- The bytes of characters. -/
def Utf8.bytes (text : List Char) : List UInt8 := text.flatMap String.utf8EncodeChar

/-- The character that stands for bytes that are none. -/
def replacement : Char := '\uFFFD'

/-! ## Reading whatever there is -/

/-- A character whose last bytes are still to come. -/
structure Pending where
  /-- The payload of the bytes that have been read. -/
  bits : Nat
  /-- The ranges of those to come. -/
  expected : List ByteRange

/-- Nothing is to come. -/
def Pending.none : Pending := ⟨0, []⟩

/-- What the first byte of a character gives at once, and what is to come. -/
def Utf8.start (b : UInt8) : List Char × Pending :=
  match Utf8.lead b with
  | .none => ([replacement], .none)
  | some (n, []) => ([Char.ofNat n], .none)
  | some (n, more) => ([], ⟨n, more⟩)

/-- What a byte gives.  One that does not continue the pending character takes its place. -/
def Pending.take (p : Pending) (b : UInt8) : List Char × Pending :=
  match p.expected with
  | [] => Utf8.start b
  | range :: more =>
    if range.holds b then
      let n := p.bits * 64 + (b.toNat - 0x80)
      match more with
      | [] => ([Char.ofNat n], .none)
      | _ => ([], ⟨n, more⟩)
    else (replacement :: (Utf8.start b).1, (Utf8.start b).2)

/-- Reads bytes whatever they are: where no character can be completed there is a replacement
    character. -/
def Utf8.readLossy (p : Pending) : List UInt8 → List Char
  | [] => if p.expected.isEmpty then [] else [replacement]
  | b :: rest => (p.take b).1 ++ readLossy (p.take b).2 rest

/-- The text that any bytes are shown as. -/
def decodeLossy (bytes : List UInt8) : String := String.ofList (Utf8.readLossy .none bytes)

namespace Utf8

/-- If a character was read in front of the rest, then the rest was read. -/
theorem map_cons_eq_ok {c : Char} {result : Except Utf8Fault (List Char)} {text : List Char}
    (h : result.map (c :: ·) = .ok text) : ∃ rest, result = .ok rest ∧ c :: rest = text := by
  cases result with
  | error fault => cases h
  | ok rest => exact ⟨rest, rfl, Except.ok.inj h⟩

/-- **Where every byte belongs to a character nothing is replaced.** -/
theorem readLossy_of_read {index taken bits : Nat} {expected : List ByteRange} {bytes : List UInt8}
    {text : List Char} (h : read index taken bits expected bytes = .ok text) :
    readLossy ⟨bits, expected⟩ bytes = text := by
  induction bytes generalizing index taken bits expected text with
  | nil =>
    rw [read] at h
    split at h
    · rename_i hempty
      cases h
      exact if_pos hempty
    · cases h
  | cons b rest ih =>
    rw [read.eq_def] at h
    rw [readLossy, Pending.take]
    -- Between two characters, or inside one whose next byte is expected in a range.
    cases expected with
    | nil =>
      simp only [start] at h ⊢
      cases hlead : lead b with
      | none =>
        simp only [hlead] at h
        cases h
      | some first =>
        obtain ⟨n, more⟩ := first
        simp only [hlead] at h ⊢
        cases more with
        | nil =>
          obtain ⟨others, hread, rfl⟩ := map_cons_eq_ok h
          exact congrArg _ (ih hread)
        | cons range more => exact ih h
    | cons range more =>
      simp only at h ⊢
      split at h
      · rename_i hholds
        rw [if_pos hholds]
        split at h
        · obtain ⟨others, hread, rfl⟩ := map_cons_eq_ok h
          exact congrArg _ (ih hread)
        · rename_i hmore
          cases more with
          | nil => exact absurd rfl hmore
          | cons range' more => exact ih h
      · cases h

/-! ## The bytes of one character

  One to four bytes; the first announces the others by ranges, in which just the bytes of a character lie. -/

variable {n : Nat}

/-- A byte that continues a character holds six bits. -/
theorem toNat_continuation (k : Nat) : (UInt8.ofNat (k % 0x40 + 0x80)).toNat = k % 0x40 + 0x80 := by
  rw [UInt8.toNat_ofNat']
  omega

/-- Six bits and the mark in front of them are a byte that can follow. -/
theorem holds_continuation (k : Nat) :
    ByteRange.holds ⟨0x80, 0xBF⟩ (UInt8.ofNat (k % 0x40 + 0x80)) = true := by
  simp only [ByteRange.holds, toNat_continuation, Bool.and_eq_true, decide_eq_true_eq]
  omega

/-- The first byte of two. -/
theorem lead_two (hlow : 0x80 ≤ n) (hhigh : n ≤ 0x7ff) :
    lead (UInt8.ofNat (n / 64 % 0x20 + 0xc0)) = some (n / 64, [⟨0x80, 0xBF⟩]) := by
  have hbyte : (UInt8.ofNat (n / 64 % 0x20 + 0xc0)).toNat = n / 64 + 0xc0 := by
    rw [UInt8.toNat_ofNat']
    omega
  simp only [lead, hbyte]
  rw [if_neg (by omega), if_neg (by omega), if_pos (by omega), Nat.add_sub_cancel]

/-- The first byte of three: what it lets the second one be fits the second one, because the number is
    neither too small for three bytes nor that of a surrogate. -/
theorem lead_three (hlow : 0x800 ≤ n) (hhigh : n ≤ 0xffff) (hvalid : n < 0xd800 ∨ 0xdfff < n) :
    ∃ range : ByteRange, lead (UInt8.ofNat (n / 4096 % 0x10 + 0xe0)) =
        some (n / 4096, [range, ⟨0x80, 0xBF⟩]) ∧
      range.holds (UInt8.ofNat (n / 64 % 0x40 + 0x80)) = true := by
  have hbyte : (UInt8.ofNat (n / 4096 % 0x10 + 0xe0)).toNat = n / 4096 + 0xe0 := by
    rw [UInt8.toNat_ofNat']
    omega
  simp only [lead, hbyte, Nat.add_sub_cancel]
  rw [if_neg (by omega), if_neg (by omega), if_neg (by omega)]
  by_cases hfirst : n / 4096 = 0
  · refine ⟨⟨0xA0, 0xBF⟩, by rw [if_pos (by omega)], ?_⟩
    simp only [ByteRange.holds, toNat_continuation, Bool.and_eq_true, decide_eq_true_eq]
    omega
  rw [if_neg (by omega)]
  by_cases hsurrogate : n / 4096 = 13
  · refine ⟨⟨0x80, 0x9F⟩, by rw [if_pos (by omega)], ?_⟩
    simp only [ByteRange.holds, toNat_continuation, Bool.and_eq_true, decide_eq_true_eq]
    omega
  · exact ⟨⟨0x80, 0xBF⟩, by rw [if_neg (by omega), if_pos (by omega)], holds_continuation _⟩

/-- The first byte of four: what it lets the second one be fits the second one, because the number is
    neither too small for four bytes nor too large for a character. -/
theorem lead_four (hlow : 0x10000 ≤ n) (hhigh : n < 0x110000) :
    ∃ range : ByteRange, lead (UInt8.ofNat (n / 262144 % 0x08 + 0xf0)) =
        some (n / 262144, [range, ⟨0x80, 0xBF⟩, ⟨0x80, 0xBF⟩]) ∧
      range.holds (UInt8.ofNat (n / 4096 % 0x40 + 0x80)) = true := by
  have hbyte : (UInt8.ofNat (n / 262144 % 0x08 + 0xf0)).toNat = n / 262144 + 0xf0 := by
    rw [UInt8.toNat_ofNat']
    omega
  simp only [lead, hbyte, Nat.add_sub_cancel]
  rw [if_neg (by omega), if_neg (by omega), if_neg (by omega), if_neg (by omega), if_neg (by omega),
    if_neg (by omega)]
  by_cases hfirst : n / 262144 = 0
  · refine ⟨⟨0x90, 0xBF⟩, by rw [if_pos (by omega)], ?_⟩
    simp only [ByteRange.holds, toNat_continuation, Bool.and_eq_true, decide_eq_true_eq]
    omega
  rw [if_neg (by omega)]
  by_cases hlast : n / 262144 = 4
  · refine ⟨⟨0x80, 0x8F⟩, by rw [if_neg (by omega), if_pos (by omega)], ?_⟩
    simp only [ByteRange.holds, toNat_continuation, Bool.and_eq_true, decide_eq_true_eq]
    omega
  · exact ⟨⟨0x80, 0xBF⟩, by rw [if_pos (by omega)], holds_continuation _⟩

/-- The bytes of one character are read as this character. -/
theorem read_char (c : Char) (rest : List UInt8) (index : Nat) :
    read index 0 0 [] (String.utf8EncodeChar c ++ rest) =
      (read (index + c.utf8Size) 0 0 [] rest).map (c :: ·) := by
  have hvalid : c.val.toNat < 0xd800 ∨ 0xdfff < c.val.toNat ∧ c.val.toNat < 0x110000 := c.valid
  have hchar : Char.ofNat c.val.toNat = c := Char.ofNat_toNat c
  rw [← String.length_utf8EncodeChar]
  -- One, two, three or four bytes: the first one announces the others, and the payloads add up to the
  -- character.
  fun_cases String.utf8EncodeChar c with
  | case1 v hone =>
    have hbyte : (UInt8.ofNat v).toNat = v := by
      rw [UInt8.toNat_ofNat']
      omega
    have hlead : lead (UInt8.ofNat v) = some (v, []) := by
      simp only [lead, hbyte]
      rw [if_pos (by omega)]
    simp only [List.singleton_append, read, hlead, List.length_singleton]
    rw [hchar]
  | case2 v hone htwo =>
    have hlead := lead_two (Nat.lt_of_not_le hone) htwo
    simp only [List.cons_append, List.nil_append, read, hlead, holds_continuation, toNat_continuation,
      if_true, List.length_cons, List.length_nil]
    rw [show v / 64 * 64 + (v % 0x40 + 0x80 - 0x80) = v by omega, hchar]
  | case3 v hone htwo hthree =>
    obtain ⟨range, hlead, hsecond⟩ := @lead_three v (Nat.lt_of_not_le htwo) hthree (by omega)
    simp only [List.cons_append, List.nil_append, read, hlead, hsecond, holds_continuation,
      toNat_continuation, if_true, List.length_cons, List.length_nil]
    rw [show (v / 4096 * 64 + (v / 64 % 0x40 + 0x80 - 0x80)) * 64 + (v % 0x40 + 0x80 - 0x80) = v by omega,
      hchar]
  | case4 v hone htwo hthree =>
    obtain ⟨range, hlead, hsecond⟩ := @lead_four v (Nat.lt_of_not_le hthree) (by omega)
    simp only [List.cons_append, List.nil_append, read, hlead, hsecond, holds_continuation,
      toNat_continuation, if_true, List.length_cons, List.length_nil]
    rw [show ((v / 262144 * 64 + (v / 4096 % 0x40 + 0x80 - 0x80)) * 64 + (v / 64 % 0x40 + 0x80 - 0x80)) * 64 +
      (v % 0x40 + 0x80 - 0x80) = v by omega, hchar]

/-- **The bytes of characters are read as these characters.** -/
theorem read_bytes (text : List Char) (index : Nat) : read index 0 0 [] (bytes text) = .ok text := by
  induction text generalizing index with
  | nil => rfl
  | cons c text ih =>
    rw [bytes, List.flatMap_cons, read_char]
    exact congrArg (Except.map _) (ih _)

/-! ## Which bytes a character has -/

/-- A character below 0x80 is one byte. -/
theorem bytes_low {c : Char} (h : c.toNat < 0x80) : String.utf8EncodeChar c = [UInt8.ofNat c.toNat] :=
  if_pos (Nat.le_of_lt_succ h)

/-- **All bytes of any other character are from 0x80 on.** -/
theorem byte_high {c : Char} (h : 0x80 ≤ c.toNat) : ∀ b ∈ String.utf8EncodeChar c, 0x80 ≤ b.toNat := by
  have hn : ¬ c.val.toNat ≤ 0x7f := Nat.not_le_of_lt h
  fun_cases String.utf8EncodeChar c with
  | case1 v hone => exact absurd hone hn
  | case2 v hone htwo =>
    simp only [List.forall_mem_cons, UInt8.toNat_ofNat']
    exact ⟨by omega, by omega, nofun⟩
  | case3 v hone htwo hthree =>
    simp only [List.forall_mem_cons, UInt8.toNat_ofNat']
    exact ⟨by omega, by omega, by omega, nofun⟩
  | case4 v hone htwo hthree =>
    simp only [List.forall_mem_cons, UInt8.toNat_ofNat']
    exact ⟨by omega, by omega, by omega, by omega, nofun⟩

/-- The bytes of one text after the other are those of the two, one after the other. -/
theorem bytes_append (text text' : List Char) : bytes (text ++ text') = bytes text ++ bytes text' :=
  List.flatMap_append

/-- A text has as many bytes as its length in bytes says. -/
theorem length_bytes (text : List Char) : (bytes text).length = String.utf8Len text := by
  induction text with
  | nil => rfl
  | cons c text ih =>
    rw [bytes, List.flatMap_cons, List.length_append, String.length_utf8EncodeChar]
    exact (Nat.add_comm _ _).trans (congrArg (· + _) ih)

end Utf8

/-! ## The bytes of a text -/

/-- What the loop has taken out of the array comes in front of what it has still to take. -/
theorem toList_loop_eq (array : ByteArray) (i : Nat) (taken : List UInt8) :
    ByteArray.toList.loop array i taken = taken.reverse ++ array.data.toList.drop i := by
  fun_induction ByteArray.toList.loop array i taken with
  | case1 i taken h ih =>
    have hi : i < array.data.toList.length := by simpa using h
    rw [ih, List.drop_eq_getElem_cons hi]
    simp [ByteArray.get!, h]
  | case2 i taken h =>
    have hi : array.data.toList.length ≤ i := by simpa using h
    rw [List.drop_eq_nil_of_le hi, List.append_nil]

/-- The bytes of a text are those of its characters. -/
theorem encode_eq_bytes (text : String) : encode text = Utf8.bytes text.toList := by
  have hbytes : (String.ofList text.toList).toByteArray = (Utf8.bytes text.toList).toByteArray :=
    String.toByteArray_ofList
  rw [String.ofList_toList] at hbytes
  show text.toByteArray.toList = _
  rw [hbytes, ByteArray.toList, toList_loop_eq, List.toList_data_toByteArray]
  rfl

end Lox.Text
