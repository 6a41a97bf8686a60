import Lox.Proofs.Text.Utf8

/-!
  Which bytes are text.

  Bytes are accepted exactly if they are those of a text, and then they are read as this text
  (`decode_eq_ok_iff`).  The two halves use the same table of first bytes: what a first byte lets follow is
  complete when, and only when, it makes the bytes of one character (`Utf8.Completes`).  A byte below
  0x80 is a character of its own, so it makes no difference at the end (`valid_append_low`).

  That the bytes of a text are accepted has been shown with the reader itself; here is the other half, that
  nothing else is.  The table is gone through line by line, with the bounds that a line sets for the second
  byte: it is they that rule out what is too long for its character (0xE0 and 0xF0), the surrogates (0xED)
  and what lies beyond the last character (0xF4).  For each length there is one equation between the bits
  and the bytes (`encode_two`, `encode_three`, `encode_four`).
-/

namespace Lox.Text

/-- The bytes are those of a text. -/
def Valid (bytes : List UInt8) : Prop := ∃ text, encode text = bytes

namespace Utf8

/-- However the bytes that have been read are continued, they become the bytes of one character. -/
def Completes (taken : List UInt8) (bits : Nat) : List ByteRange → Prop
  | [] => String.utf8EncodeChar (Char.ofNat bits) = taken
  | range :: more => ∀ b, range.holds b = true →
    Completes (taken ++ [b]) (bits * 64 + (b.toNat - 0x80)) more

/-- With nothing left to follow, the bytes taken are those of the character. -/
theorem completes_nil {taken : List UInt8} {bits : Nat} :
    Completes taken bits [] ↔ String.utf8EncodeChar (Char.ofNat bits) = taken := Iff.rfl

/-- With something left to follow, every byte in its range goes on. -/
theorem completes_cons {taken : List UInt8} {bits : Nat} {range : ByteRange} {more : List ByteRange} :
    Completes taken bits (range :: more) ↔ ∀ b, range.holds b = true →
      Completes (taken ++ [b]) (bits * 64 + (b.toNat - 0x80)) more := Iff.rfl

section Characters

variable {n : Nat} {a b c d : UInt8}

/-- A byte is in a range if its number is. -/
theorem holds_iff {range : ByteRange} : range.holds b = true ↔ range.low ≤ b.toNat ∧ b.toNat ≤ range.high := by
  simp only [ByteRange.holds, Bool.and_eq_true, decide_eq_true_eq]

/-- A number that a character can have is that of the character it makes. -/
theorem val_ofNat (h : n < 0xd800 ∨ 0xdfff < n ∧ n < 0x110000) : (Char.ofNat n).val.toNat = n := by
  have hvalid : n.isValidChar := h
  rw [Char.ofNat, dif_pos hvalid]
  show (UInt32.ofNatLT n _).toNat = n
  rfl

/-- A byte is told by its number. -/
theorem ofNat_eq {k : Nat} (h : k = b.toNat) : UInt8.ofNat k = b := by
  rw [h, UInt8.ofNat_toNat]

/-- The bits of two bytes, taken apart again. -/
theorem encode_two (hn : n = (a.toNat - 0xC0) * 64 + (b.toNat - 0x80)) (ha : 0xC2 ≤ a.toNat)
    (ha' : a.toNat < 0xE0) (hb : 0x80 ≤ b.toNat ∧ b.toNat ≤ 0xBF) :
    String.utf8EncodeChar (Char.ofNat n) = [a, b] := by
  have hval : (Char.ofNat n).val.toNat = n := val_ofNat (.inl (by omega))
  simp only [String.utf8EncodeChar, hval]
  rw [if_neg (by omega), if_pos (by omega)]
  rw [ofNat_eq (b := a) (by omega), ofNat_eq (b := b) (by omega)]

/-- The bits of three bytes, taken apart again, unless they are those of a surrogate. -/
theorem encode_three (hn : n = ((a.toNat - 0xE0) * 64 + (b.toNat - 0x80)) * 64 + (c.toNat - 0x80))
    (hlow : 0x800 ≤ n) (hvalid : n < 0xd800 ∨ 0xdfff < n) (ha : 0xE0 ≤ a.toNat) (ha' : a.toNat < 0xF0)
    (hb : 0x80 ≤ b.toNat ∧ b.toNat ≤ 0xBF) (hc : 0x80 ≤ c.toNat ∧ c.toNat ≤ 0xBF) :
    String.utf8EncodeChar (Char.ofNat n) = [a, b, c] := by
  have hval : (Char.ofNat n).val.toNat = n := val_ofNat (by omega)
  simp only [String.utf8EncodeChar, hval]
  rw [if_neg (by omega), if_neg (by omega), if_pos (by omega)]
  rw [ofNat_eq (b := a) (by omega), ofNat_eq (b := b) (by omega), ofNat_eq (b := c) (by omega)]

/-- The bits of four bytes, taken apart again. -/
theorem encode_four (hn : n = (((a.toNat - 0xF0) * 64 + (b.toNat - 0x80)) * 64 + (c.toNat - 0x80)) * 64 +
      (d.toNat - 0x80))
    (hlow : 0x10000 ≤ n) (hhigh : n < 0x110000) (ha : 0xF0 ≤ a.toNat)
    (hb : 0x80 ≤ b.toNat ∧ b.toNat ≤ 0xBF) (hc : 0x80 ≤ c.toNat ∧ c.toNat ≤ 0xBF)
    (hd : 0x80 ≤ d.toNat ∧ d.toNat ≤ 0xBF) :
    String.utf8EncodeChar (Char.ofNat n) = [a, b, c, d] := by
  have hval : (Char.ofNat n).val.toNat = n := val_ofNat (.inr (by omega))
  simp only [String.utf8EncodeChar, hval]
  rw [if_neg (by omega), if_neg (by omega), if_neg (by omega)]
  rw [ofNat_eq (b := a) (by omega), ofNat_eq (b := b) (by omega), ofNat_eq (b := c) (by omega),
    ofNat_eq (b := d) (by omega)]

end Characters

/-- **What a first byte lets follow makes one character with it.** -/
theorem lead_completes {a : UInt8} {n : Nat} {more : List ByteRange} (h : lead a = some (n, more)) :
    Completes [a] n more := by
  simp only [lead] at h
  split at h
  · rename_i hlow
    rw [Option.some.injEq, Prod.mk.injEq] at h
    obtain ⟨rfl, rfl⟩ := h
    have hchar : (Char.ofNat a.toNat).toNat = a.toNat := val_ofNat (.inl (by omega))
    rw [completes_nil, bytes_low (by omega), hchar, UInt8.ofNat_toNat]
  split at h
  · cases h
  repeat' split at h
  -- What is left is the kinds of first bytes that others follow, and bytes that are none.
  all_goals
    first
    | rw [Option.some.injEq, Prod.mk.injEq] at h
      obtain ⟨rfl, rfl⟩ := h
      simp only [completes_cons, completes_nil, holds_iff, List.cons_append, List.nil_append]
    | cases h
  · intro b hb
    exact encode_two rfl (by omega) (by omega) hb
  · intro b hb c hc
    exact encode_three rfl (by omega) (by omega) (by omega) (by omega) (by omega) hc
  · intro b hb c hc
    exact encode_three rfl (by omega) (by omega) (by omega) (by omega) (by omega) hc
  · intro b hb c hc
    exact encode_three rfl (by omega) (by omega) (by omega) (by omega) hb hc
  · intro b hb c hc d hd
    exact encode_four rfl (by omega) (by omega) (by omega) (by omega) hc hd
  · intro b hb c hc d hd
    exact encode_four rfl (by omega) (by omega) (by omega) hb hc hd
  · intro b hb c hc d hd
    exact encode_four rfl (by omega) (by omega) (by omega) (by omega) hc hd

/-- **Bytes that are read as characters are the bytes of these characters**, together with those that have
    been read of the first. -/
theorem bytes_of_read {index taken bits : Nat} {expected : List ByteRange} {front rest : List UInt8}
    {text : List Char} (h : read index taken bits expected rest = .ok text)
    (hbetween : expected = [] → front = []) (hinside : expected ≠ [] → Completes front bits expected) :
    bytes text = front ++ rest := by
  induction rest generalizing index taken bits expected front text with
  | nil =>
    rw [read] at h
    cases expected with
    | nil =>
      cases h
      rw [hbetween rfl]
      rfl
    | cons range more => cases h
  | cons b rest ih =>
    -- After the last byte of a character nothing has been read of the next one.
    have hlast : ∀ {n index : Nat}, Completes (front ++ [b]) n [] →
        (read index 0 0 [] rest).map (Char.ofNat n :: ·) = .ok text → bytes text = front ++ b :: rest := by
      intro n index hcomplete hmap
      obtain ⟨others, hread, rfl⟩ := map_cons_eq_ok hmap
      have hothers : bytes others = [] ++ rest := ih hread (fun _ => rfl) (absurd rfl)
      rw [bytes, List.flatMap_cons, ← bytes, hothers, completes_nil.mp hcomplete, List.append_assoc]
      rfl
    rw [read.eq_def] at h
    cases expected with
    | nil =>
      have hfront : front = [] := hbetween rfl
      subst hfront
      simp only at h
      split at h
      · cases h
      · rename_i n hlead
        exact hlast (lead_completes hlead) h
      · rename_i n more hmore hlead
        exact ih h (fun hnil => absurd hnil (by simpa using hmore)) fun _ => lead_completes hlead
    | cons range more =>
      simp only at h
      split at h
      · rename_i hholds
        have hnext := completes_cons.mp (hinside (List.cons_ne_nil _ _)) b hholds
        cases more with
        | nil => exact hlast hnext h
        | cons range' more =>
          have hread : bytes text = (front ++ [b]) ++ rest := ih h (fun hnil => absurd hnil (List.cons_ne_nil _ _)) fun _ => hnext
          rw [hread, List.append_assoc]
          rfl
      · cases h

end Utf8

/-- **Bytes are read as a text exactly if they are the bytes of this text.** -/
theorem decode_eq_ok_iff {bytes : List UInt8} {text : String} :
    decode bytes = .ok text ↔ encode text = bytes := by
  rw [decode, encode_eq_bytes]
  constructor
  · intro h
    cases hread : Utf8.read 0 0 0 [] bytes with
    | error fault =>
      rw [hread] at h
      cases h
    | ok chars =>
      rw [hread] at h
      cases h
      rw [String.toList_ofList]
      have hbytes : Utf8.bytes chars = [] ++ bytes := Utf8.bytes_of_read hread (fun _ => rfl) (absurd rfl)
      exact hbytes
  · rintro rfl
    rw [Utf8.read_bytes]
    exact congrArg Except.ok String.ofList_toList

/-- Bytes that are not text are refused. -/
theorem decode_of_not_valid {bytes : List UInt8} (h : ¬ Valid bytes) : ∃ fault, decode bytes = .error fault := by
  cases hdecode : decode bytes with
  | ok text => exact absurd ⟨text, decode_eq_ok_iff.mp hdecode⟩ h
  | error fault => exact ⟨fault, rfl⟩

/-! ## Bytes that are characters of their own -/

/-- Texts are encoded one after the other. -/
theorem encode_append (text text' : String) : encode (text ++ text') = encode text ++ encode text' := by
  simp only [encode_eq_bytes, String.toList_append, Utf8.bytes_append]

/-- A character below 0x80 is in a text exactly if its byte is among those of the text. -/
theorem mem_encode_iff {text : String} {c : Char} (hc : c.toNat < 0x80) :
    UInt8.ofNat c.toNat ∈ encode text ↔ c ∈ text.toList := by
  rw [encode_eq_bytes, Utf8.bytes, List.mem_flatMap]
  constructor
  · rintro ⟨d, hd, hb⟩
    -- All bytes of a longer character are high.
    have hlow : d.toNat < 0x80 := by
      apply Nat.lt_of_not_le
      intro hhigh
      have hle := Utf8.byte_high hhigh _ hb
      rw [UInt8.toNat_ofNat'] at hle
      omega
    rw [Utf8.bytes_low hlow, List.mem_singleton] at hb
    have hsame : c.toNat = d.toNat := by
      have hbyte := congrArg UInt8.toNat hb
      rw [UInt8.toNat_ofNat', UInt8.toNat_ofNat'] at hbyte
      omega
    rw [Char.toNat_inj.mp hsame]
    exact hd
  · intro h
    refine ⟨c, h, ?_⟩
    rw [Utf8.bytes_low hc]
    exact List.mem_singleton_self _

/-- **The last byte of a text, if it is below 0x80, is its last character.** -/
theorem encode_eq_append_low {text : String} {bytes : List UInt8} {b : UInt8} (hb : b.toNat < 0x80)
    (h : encode text = bytes ++ [b]) : ∃ front, text.toList = front ++ [Char.ofNat b.toNat] ∧
      encode (String.ofList front) = bytes := by
  rw [encode_eq_bytes] at h
  rcases List.eq_nil_or_concat text.toList with hnil | ⟨front, c, hsplit⟩
  · rw [hnil] at h
    exact absurd h.symm (List.append_ne_nil_of_right_ne_nil _ (List.cons_ne_nil _ _))
  · rw [List.concat_eq_append] at hsplit
    have hlast : Utf8.bytes front ++ String.utf8EncodeChar c = bytes ++ [b] := by
      rw [hsplit, Utf8.bytes_append] at h
      rw [← h, Utf8.bytes, Utf8.bytes, List.flatMap_singleton]
    -- All bytes of a longer character are high.
    have hlow : c.toNat < 0x80 := by
      apply Nat.lt_of_not_le
      intro hhigh
      have hne : String.utf8EncodeChar c ≠ [] := by
        apply List.ne_nil_of_length_pos
        rw [String.length_utf8EncodeChar]
        exact Char.utf8Size_pos c
      have hmem : b ∈ String.utf8EncodeChar c := by
        have hgetLast := congrArg List.getLast? hlast
        rw [List.getLast?_append_of_ne_nil _ hne, List.getLast?_concat] at hgetLast
        exact List.mem_of_getLast? hgetLast
      have hle := Utf8.byte_high hhigh b hmem
      omega
    rw [Utf8.bytes_low hlow] at hlast
    obtain ⟨hfront, hbyte⟩ := List.append_inj' hlast rfl
    refine ⟨front, ?_, ?_⟩
    · have hnat : c.toNat = b.toNat := by
        rw [← (List.cons.inj hbyte).1, UInt8.toNat_ofNat']
        omega
      rw [hsplit, ← hnat, Char.ofNat_toNat]
    · rw [encode_eq_bytes, String.toList_ofList, hfront]

/-- A byte below 0x80 can be left out at the end of a text. -/
theorem valid_append_low {bytes : List UInt8} {b : UInt8} (hb : b.toNat < 0x80) :
    Valid (bytes ++ [b]) ↔ Valid bytes := by
  constructor
  · rintro ⟨text, h⟩
    obtain ⟨front, -, hfront⟩ := encode_eq_append_low hb h
    exact ⟨_, hfront⟩
  · rintro ⟨text, rfl⟩
    have hchar : (Char.ofNat b.toNat).toNat = b.toNat := Utf8.val_ofNat (.inl (by omega))
    refine ⟨text ++ String.singleton (Char.ofNat b.toNat), ?_⟩
    rw [encode_append, encode_eq_bytes (String.singleton _), String.toList_singleton, Utf8.bytes,
      List.flatMap_singleton, Utf8.bytes_low (by omega), hchar, UInt8.ofNat_toNat]

end Lox.Text
