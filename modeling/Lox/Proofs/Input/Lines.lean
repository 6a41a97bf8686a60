import Lox.Host
import Lox.Proofs.Text.Validity

/-!
  Lines.

  Input is bytes, and `input` gives text.  Between the two are lines, and a reader has three chances to go
  wrong with them: where a line ends, what of its end is kept, and what it does with bytes that are no text.

  1. **Splitting** (`linesOf`).  Bytes fall into lines, each of which has its end with it; only the last one may
     lack it.  Nothing is lost (`flatten_linesOf`), and to split off a line is to take the first of these
     (`splitLine_eq`), so from here on input is a list of lines and not a list of bytes.
  2. **Lists of lines** (`Lined`).  A list is that of the lines of some bytes if splitting what it makes up gives
     it back.  Any line can be taken out of such a list (`Lined.erase`): only the last line may lack its
     end, so two lines never run into each other.  This is what a broken line that is skipped comes to.
  3. **Texts** (`LineText`).  The text of a line is what is left without its end, which is a newline, or a
     carriage return and a newline; a carriage return elsewhere belongs to the text.  A line that is text
     has such a text (`IsLine.exists_text`), which is what a reader makes of the line
     (`LineText.decode_eq`); any other line is refused (`IsLine.decode_broken`).
-/

namespace Lox

/-- The lines of bytes, each with its end. -/
def linesOf : List UInt8 → List (List UInt8)
  | [] => []
  | b :: rest =>
    if b = 10 then [b] :: linesOf rest
    else
      match linesOf rest with
      | [] => [[b]]
      | line :: lines => (b :: line) :: lines

section Lines

variable {text rest : List UInt8}

/-- A line with its end is the first of all. -/
theorem linesOf_ended (h : 10 ∉ text) : linesOf (text ++ 10 :: rest) = (text ++ [10]) :: linesOf rest := by
  induction text with
  | nil => exact if_pos rfl
  | cons b text ih =>
    rw [List.mem_cons, not_or] at h
    rw [List.cons_append, linesOf, if_neg (Ne.symm h.1), ih h.2]
    rfl

/-- Bytes without a newline are one line. -/
theorem linesOf_unended (h : 10 ∉ text) (hne : text ≠ []) : linesOf text = [text] := by
  induction text with
  | nil => exact absurd rfl hne
  | cons b text ih =>
    rw [List.mem_cons, not_or] at h
    rw [linesOf, if_neg (Ne.symm h.1)]
    by_cases htext : text = []
    · subst htext
      rfl
    · rw [ih h.2 htext]

/-- Bytes without a newline, or with a first one. -/
theorem newline_cases (bytes : List UInt8) :
    10 ∉ bytes ∨ ∃ text rest, bytes = text ++ 10 :: rest ∧ 10 ∉ text := by
  by_cases h : 10 ∈ bytes
  · exact .inr (List.eq_append_cons_of_mem h)
  · exact .inl h

/-- **Lines lose nothing.** -/
theorem flatten_linesOf (bytes : List UInt8) : (linesOf bytes).flatten = bytes := by
  induction bytes with
  | nil => rfl
  | cons b rest ih =>
    rw [linesOf]
    split
    · rw [List.flatten_cons, ih]
      rfl
    · split
      · rename_i hlines
        rw [hlines] at ih
        rw [← ih]
        rfl
      · rename_i line lines hlines
        rw [hlines] at ih
        rw [← ih]
        rfl

/-- There are no more lines than bytes. -/
theorem length_linesOf_le (bytes : List UInt8) : (linesOf bytes).length ≤ bytes.length := by
  induction bytes with
  | nil => exact Nat.le_refl 0
  | cons b rest ih =>
    rw [linesOf, List.length_cons]
    split
    · rw [List.length_cons]
      omega
    · cases hlines : linesOf rest with
      | nil =>
        rw [List.length_singleton]
        omega
      | cons line lines =>
        rw [hlines, List.length_cons] at ih
        rw [List.length_cons]
        omega

/-- No line is empty. -/
theorem ne_nil_of_mem_linesOf {line bytes : List UInt8} (h : line ∈ linesOf bytes) : line ≠ [] := by
  induction bytes generalizing line with
  | nil => cases h
  | cons b rest ih =>
    rw [linesOf] at h
    split at h
    · rcases List.mem_cons.mp h with rfl | h
      · exact List.cons_ne_nil _ _
      · exact ih h
    · split at h
      · cases List.mem_singleton.mp h
        exact List.cons_ne_nil _ _
      · rename_i first lines hlines
        rcases List.mem_cons.mp h with rfl | h
        · exact List.cons_ne_nil _ _
        · exact ih (hlines ▸ List.mem_cons_of_mem _ h)

/-- **To split off a line is to take the first one.** -/
theorem splitLine_eq (bytes : List UInt8) :
    Host.splitLine bytes = ((linesOf bytes).headD [], (linesOf bytes).tail.flatten) := by
  induction bytes with
  | nil => rfl
  | cons b rest ih =>
    rw [Host.splitLine, linesOf]
    split
    · rw [List.headD_cons, List.tail_cons, flatten_linesOf]
    · rw [ih]
      cases linesOf rest <;> rfl

end Lines

/-! ## Lists of lines -/

/-- A line: its end, if it has one, is the only newline in it. -/
inductive IsLine : List UInt8 → Prop where
  | ended {text : List UInt8} : 10 ∉ text → IsLine (text ++ [10])
  | unended {text : List UInt8} : 10 ∉ text → IsLine text

/-- The lines of some bytes. -/
def Lined (lines : List (List UInt8)) : Prop := linesOf lines.flatten = lines

/-- The lines of bytes are the lines of what they make up. -/
theorem lined_linesOf (bytes : List UInt8) : Lined (linesOf bytes) := by
  rw [Lined, flatten_linesOf]

namespace Lined

variable {line : List UInt8} {lines others : List (List UInt8)}

/-- What follows on a line follows on its end. -/
theorem cons_cases (h : Lined (line :: lines)) : IsLine line ∧ Lined lines ∧
    (lines = [] ∨ ∃ text, line = text ++ [10] ∧ 10 ∉ text) := by
  rw [Lined, List.flatten_cons] at h
  rcases newline_cases (line ++ lines.flatten) with hnone | ⟨text, rest, hsplit, htext⟩
  · have hne : line ++ lines.flatten ≠ [] := by
      intro hnil
      rw [hnil] at h
      cases h
    rw [linesOf_unended hnone hne] at h
    obtain ⟨hline, hlines⟩ := List.cons.inj h
    subst hlines
    exact ⟨.unended fun hmem => hnone (List.mem_append_left _ hmem), rfl, .inl rfl⟩
  · rw [hsplit, linesOf_ended htext] at h
    obtain ⟨hline, hlines⟩ := List.cons.inj h
    have hrest : lines.flatten = rest := by rw [← hlines, flatten_linesOf]
    refine ⟨hline ▸ .ended htext, ?_, .inr ⟨text, hline.symm, htext⟩⟩
    rw [Lined, hrest, hlines]

/-- Without the first line as well. -/
theorem tail (h : Lined lines) : Lined lines.tail := by
  cases lines with
  | nil => exact h
  | cons line lines => exact h.cons_cases.2.1

/-- Each of them is a line. -/
theorem isLine (h : Lined lines) (hmem : line ∈ lines) : IsLine line := by
  induction lines with
  | nil => cases hmem
  | cons first lines ih =>
    obtain ⟨hfirst, hlines, -⟩ := h.cons_cases
    rcases List.mem_cons.mp hmem with rfl | hmem
    · exact hfirst
    · exact ih hlines hmem

/-- **Without one of them, lines are the lines of what is left.** -/
theorem erase (h : Lined (others ++ line :: lines)) : Lined (others ++ lines) := by
  induction others with
  | nil => exact h.tail
  | cons first others ih =>
    obtain ⟨-, hrest, hend⟩ := h.cons_cases
    rcases hend with hnil | ⟨text, rfl, htext⟩
    -- A line follows on the first one, so the first one has an end.
    · exact absurd hnil (List.append_ne_nil_of_right_ne_nil _ (List.cons_ne_nil _ _))
    · have hothers : linesOf (others ++ lines).flatten = others ++ lines := ih hrest
      show linesOf ((text ++ [10]) ++ (others ++ lines).flatten) = _
      rw [List.append_assoc, List.singleton_append, linesOf_ended htext, hothers]
      rfl

end Lined

/-! ## The text of a line -/

open Text

/-- The line has the text, and an end or none. -/
inductive LineText : List UInt8 → String → Prop where
  | newline {text : String} : '\n' ∉ text.toList → text.toList.getLast? ≠ some '\r' →
    LineText (encode text ++ [10]) text
  | carriageReturn {text : String} : '\n' ∉ text.toList → LineText (encode text ++ [13, 10]) text
  | unended {text : String} : '\n' ∉ text.toList → LineText (encode text) text

section Texts

variable {line : List UInt8} {text : String}

/-- A newline is one byte, and no other character has this byte in it. -/
theorem newline_mem_iff : 10 ∈ encode text ↔ '\n' ∈ text.toList :=
  mem_encode_iff (c := '\n') (by decide)

/-! ### Without the end -/

/-- A line that has no end is left as it is. -/
theorem withoutLineEnd_unended (h : 10 ∉ line) : Host.withoutLineEnd line = line := by
  have hmem : ∀ {rest}, line.reverse = 10 :: rest → 10 ∈ line := by
    intro rest hrest
    rw [← List.mem_reverse, hrest]
    exact List.mem_cons_self
  rw [Host.withoutLineEnd]
  split
  · rename_i hrest
    exact absurd (hmem hrest) h
  · rename_i hrest
    exact absurd (hmem hrest) h
  · rfl

/-- A newline is cut off. -/
theorem withoutLineEnd_newline {bytes : List UInt8} (h : bytes.getLast? ≠ some 13) :
    Host.withoutLineEnd (bytes ++ [10]) = bytes := by
  rw [Host.withoutLineEnd, List.reverse_append, List.reverse_singleton, List.singleton_append]
  split
  · rename_i rest hrest
    have hreverse : bytes.reverse = 13 :: rest := (List.cons.inj hrest).2
    rw [← List.head?_reverse, hreverse] at h
    exact absurd rfl h
  · rename_i rest _ hrest
    rw [← (List.cons.inj hrest).2, List.reverse_reverse]
  · rename_i hnone
    exact absurd rfl (hnone _)

/-- A carriage return before it is cut off as well. -/
theorem withoutLineEnd_carriageReturn (bytes : List UInt8) :
    Host.withoutLineEnd (bytes ++ [13, 10]) = bytes := by
  rw [Host.withoutLineEnd, List.reverse_append]
  show bytes.reverse.reverse = bytes
  exact List.reverse_reverse bytes

/-- A line is what is left without its end, and the end. -/
theorem IsLine.split (h : IsLine line) : 10 ∉ Host.withoutLineEnd line ∧
    (line = Host.withoutLineEnd line ++ [10] ∧ (Host.withoutLineEnd line).getLast? ≠ some 13 ∨
      line = Host.withoutLineEnd line ++ [13, 10] ∨ line = Host.withoutLineEnd line) := by
  cases h with
  | @ended bytes hnone =>
    by_cases hreturn : bytes.getLast? = some 13
    · obtain ⟨front, rfl⟩ := List.getLast?_eq_some_iff.mp hreturn
      have hline : front ++ [13] ++ [10] = front ++ [13, 10] := by rw [List.append_assoc]; rfl
      rw [hline, withoutLineEnd_carriageReturn]
      exact ⟨fun hmem => hnone (List.mem_append_left _ hmem), .inr (.inl rfl)⟩
    · rw [withoutLineEnd_newline hreturn]
      exact ⟨hnone, .inl ⟨rfl, hreturn⟩⟩
  | unended hnone =>
    rw [withoutLineEnd_unended hnone]
    exact ⟨hnone, .inr (.inr rfl)⟩

/-- The end of a line is text, so it makes no difference to whether the line is. -/
theorem IsLine.valid_iff (h : IsLine line) : Valid (Host.withoutLineEnd line) ↔ Valid line := by
  rcases h.split.2 with ⟨hline, -⟩ | hline | hline
  · conv_rhs => rw [hline]
    exact (valid_append_low (by decide)).symm
  · conv_rhs => rw [hline, ← List.singleton_append, ← List.append_assoc]
    exact ((valid_append_low (by decide)).trans (valid_append_low (by decide))).symm
  · rw [← hline]

/-- **A reader makes of a line its text.** -/
theorem LineText.decode_eq (h : LineText line text) : decode (Host.withoutLineEnd line) = .ok text := by
  rw [decode_eq_ok_iff]
  cases h with
  | newline _ hreturn =>
    symm
    apply withoutLineEnd_newline
    intro hlast
    obtain ⟨bytes, hbytes⟩ := List.getLast?_eq_some_iff.mp hlast
    obtain ⟨front, hfront, -⟩ := encode_eq_append_low (by decide) hbytes
    rw [hfront, List.getLast?_concat] at hreturn
    exact hreturn rfl
  | carriageReturn => exact (withoutLineEnd_carriageReturn _).symm
  | unended hnone => exact (withoutLineEnd_unended fun hmem => hnone (newline_mem_iff.mp hmem)).symm

/-- **A line that is text has a text.** -/
theorem IsLine.exists_text (h : IsLine line) (hvalid : Valid line) : ∃ text, LineText line text := by
  obtain ⟨text, htext⟩ := h.valid_iff.mpr hvalid
  obtain ⟨hnone, hend⟩ := h.split
  rw [← htext] at hnone hend
  have hunbroken : '\n' ∉ text.toList := fun hmem => hnone (newline_mem_iff.mpr hmem)
  refine ⟨text, ?_⟩
  rcases hend with ⟨hline, hreturn⟩ | hline | hline
  · rw [hline]
    apply LineText.newline hunbroken
    intro hlast
    obtain ⟨front, hfront⟩ := List.getLast?_eq_some_iff.mp hlast
    apply hreturn
    rw [encode_eq_bytes, hfront, Utf8.bytes_append]
    exact List.getLast?_concat
  · rw [hline]
    exact .carriageReturn hunbroken
  · rw [hline]
    exact .unended hunbroken

/-- Any other line has none. -/
theorem LineText.valid (h : LineText line text) : Valid line := by
  cases h with
  | newline => exact (valid_append_low (by decide)).mpr ⟨text, rfl⟩
  | carriageReturn =>
    rw [← List.singleton_append, ← List.append_assoc]
    exact (valid_append_low (by decide)).mpr ((valid_append_low (by decide)).mpr ⟨text, rfl⟩)
  | unended => exact ⟨text, rfl⟩

/-- A reader refuses a line that is no text. -/
theorem IsLine.decode_broken (h : IsLine line) (hbroken : ¬ Valid line) :
    ∃ fault, decode (Host.withoutLineEnd line) = .error fault :=
  decode_of_not_valid fun hvalid => hbroken (h.valid_iff.mp hvalid)

end Texts

end Lox
