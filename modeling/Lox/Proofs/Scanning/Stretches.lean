import Mathlib.Data.List.Infix
import Lox.Proofs.Joining.Scanning

/-!
  Stretches of a program text.

  What the pieces of a text are is said here of their characters alone.

  * A gap is made of blanks and comments (`Gap`): a comment to the end of its line goes on up to a newline or the
    end of the text, a comment over lines up to the first end of a comment.  What follows a gap belongs to what
    makes it one, for a comment is not over where another character of it follows.
  * A stretch that cannot be read is one character with which nothing begins, or a string or a comment that
    nothing closes and that goes on to the end of the text (`Unread`).
  * A lexeme is known here by its kind; that it is one is the subject of another module.

  The first piece of a text is always of one of these three sorts (`nextPiece_fits`), with a lemma for each
  reader, and the pieces of a text are cut from it one behind the other (`pieces_cut`).
-/

namespace Lox

/-! ## Kinds of stretches -/

/-- Blanks and comments, before the text that follows them. -/
inductive Gap : List Char → List Char → Prop where
  | nil (after : List Char) : Gap [] after
  | blank {c : Char} {text after : List Char} : c ∈ [' ', '\t', '\r', '\n'] → Gap text after →
    Gap (c :: text) after
  | lineComment {body text after : List Char} : '\n' ∉ body →
    (∀ c ∈ (text ++ after).head?, c = '\n') → Gap text after →
    Gap ('/' :: '/' :: body ++ text) after
  | blockComment {body text after : List Char} : ¬ ['*', '/'] <:+: body ++ ['*'] → Gap text after →
    Gap ('/' :: '*' :: body ++ '*' :: '/' :: text) after

/-- The inside of a string literal that no quote closes; the character behind a backslash does not
    count. -/
inductive Unclosed : List Char → Prop where
  | nil : Unclosed []
  | lone : Unclosed ['\\']
  | escape (c : Char) {rest : List Char} : Unclosed rest → Unclosed ('\\' :: c :: rest)
  | plain {c : Char} {rest : List Char} : c ≠ '"' → c ≠ '\\' → Unclosed rest → Unclosed (c :: rest)

/-- The character begins nothing: no gap, no string, no number, no name and no mark. -/
structure Foreign (c : Char) : Prop where
  blank : c ∉ [' ', '\t', '\r', '\n']
  quote : c ≠ '"'
  digit : c.isDigit = false
  name : isNameStart c = false
  mark : ∀ m : Mark, m.text.toList.head? ≠ some c

/-- A stretch that cannot be read for the given cause, before the text that follows it. -/
inductive Unread : LexicalFault → List Char → List Char → Prop where
  | character {c : Char} (after : List Char) : Foreign c → Unread (.unexpectedCharacter c) [c] after
  | string {body : List Char} : Unclosed body → Unread .unterminatedString ('"' :: body) []
  | comment {body : List Char} : ¬ ['*', '/'] <:+: body →
    Unread .unterminatedComment ('/' :: '*' :: body) []

/-- Digits, or digits with a point between them. -/
def Numeral (text : List Char) : Prop :=
  ∃ whole, whole ≠ [] ∧ (∀ c ∈ whole, c.isDigit = true) ∧
    (text = whole ∨ ∃ places, places ≠ [] ∧ (∀ c ∈ places, c.isDigit = true) ∧
      text = whole ++ '.' :: places)

/-- The piece is what it is taken for, before the text that follows it. -/
def Piece.Fits (after : List Char) : Piece → Prop
  | .gap text => Gap text after
  | .lexeme kind text => kind ≠ .eof ∧ ∀ x, kind = .number x → Numeral text
  | .fault cause text => Unread cause text after

/-! ## Gaps -/

/-- The four blanks. -/
theorem isBlank_iff {c : Char} : isBlank c = true ↔ c ∈ [' ', '\t', '\r', '\n'] := by
  simp only [isBlank, Bool.or_eq_true, beq_iff_eq, List.mem_cons, List.not_mem_nil, or_false]
  constructor
  · rintro (((h | h) | h) | h) <;> simp [h]
  · rintro (h | h | h | h) <;> simp [h]

/-- Blanks are a gap, whatever follows. -/
theorem gap_of_blanks {text : List Char} (h : ∀ c ∈ text, isBlank c = true) (after : List Char) :
    Gap text after := by
  induction text with
  | nil => exact .nil after
  | cons c text ih =>
    have hc := isBlank_iff.mp (h c List.mem_cons_self)
    exact .blank hc (ih fun d hd => h d (List.mem_cons_of_mem c hd))

/-- A gap and a further one. -/
theorem Gap.append {text text' after : List Char} (h : Gap text (text' ++ after))
    (h' : Gap text' after) : Gap (text ++ text') after := by
  generalize hbehind : text' ++ after = behind at h
  -- By what the first gap is made of; what follows it is now the second gap and what follows that.
  induction h with
  | nil => exact h'
  | blank hc _ ih => exact .blank hc (ih hbehind)
  | @lineComment body text behind hbody hend _ ih =>
    have hrest := ih hbehind
    rw [List.append_assoc]
    refine .lineComment hbody ?_ hrest
    rw [List.append_assoc, hbehind]
    exact hend
  | @blockComment body text behind hbody _ ih =>
    have hrest := ih hbehind
    rw [List.append_assoc]
    exact .blockComment hbody hrest

/-- A comment to the end of its line. -/
theorem readLineComment_fits (rest : List Char) :
    (readLineComment rest).1.Fits (readLineComment rest).2 := by
  have hbody : '\n' ∉ rest.takeWhile (· ≠ '\n') := by
    intro hmem
    have hne := List.mem_takeWhile_imp hmem
    simp at hne
  -- It ends where a newline follows, or nothing.
  have hend : ∀ c ∈ ([] ++ rest.dropWhile (· ≠ '\n')).head?, c = '\n' := by
    intro c hc
    have hstop := List.head?_dropWhile_not (· ≠ '\n') rest
    rw [List.nil_append] at hc
    rw [Option.mem_def.mp hc] at hstop
    simpa using hstop
  have hgap := Gap.lineComment hbody hend (.nil _)
  rw [List.append_nil] at hgap
  exact hgap

/-- A comment ends where it is ended for the first time. -/
theorem first_end_of_splitComment? {text body after : List Char}
    (h : splitComment? text = some (body, after)) :
    ∃ inner, body = inner ++ ['*', '/'] ∧ ¬ ['*', '/'] <:+: inner ++ ['*'] := by
  fun_induction splitComment? text generalizing body after with
  | case1 => cases h
  | case2 rest =>
    cases h
    exact ⟨[], rfl, by decide⟩
  | case3 c rest hnot ih =>
    obtain ⟨⟨b, a⟩, hs, he⟩ := Option.map_eq_some_iff.1 h
    cases he
    obtain ⟨inner, rfl, hinner⟩ := ih hs
    refine ⟨c :: inner, rfl, fun hinfix => ?_⟩
    rcases List.infix_cons_iff.mp hinfix with hprefix | hlater
    · -- An end that began with the first character would have been taken.
      obtain ⟨hc, htail⟩ := List.cons_prefix_cons.mp hprefix
      have hrest := eq_of_splitComment? hs
      cases inner with
      | nil => exact absurd (List.cons_prefix_cons.mp htail).1 (by decide)
      | cons d inner =>
        have hd := (List.cons_prefix_cons.mp htail).1
        exact hnot _ hc.symm (by rw [hrest, ← hd]; rfl)
    · exact hinner hlater

/-- Where no end of a comment is found there is none. -/
theorem open_of_splitComment? {text : List Char} (h : splitComment? text = none) :
    ¬ ['*', '/'] <:+: text := by
  fun_induction splitComment? text with
  | case1 => decide
  | case2 rest => cases h
  | case3 c rest hnot ih =>
    intro hinfix
    rcases List.infix_cons_iff.mp hinfix with hprefix | hlater
    · obtain ⟨hc, htail⟩ := List.cons_prefix_cons.mp hprefix
      obtain ⟨others, hothers⟩ := htail
      exact hnot others hc.symm hothers.symm
    · exact ih (Option.map_eq_none_iff.mp h) hlater

/-- A comment over lines, which ends at the first end or not at all. -/
theorem readBlockComment_fits (rest : List Char) :
    (readBlockComment rest).1.Fits (readBlockComment rest).2 := by
  unfold readBlockComment
  split
  · rename_i body after h
    obtain ⟨inner, rfl, hinner⟩ := first_end_of_splitComment? h
    exact .blockComment hinner (.nil _)
  · rename_i h
    exact .comment (open_of_splitComment? h)

/-! ## Lexemes -/

/-- Where no quote is found there is none that is not escaped. -/
theorem unclosed_of_split? {text : List Char} (h : Text.Escaped.split? text = none) :
    Unclosed text := by
  fun_induction Text.Escaped.split? text with
  | case1 => exact .nil
  | case2 rest => cases h
  | case3 c rest ih => exact .escape c (ih (Option.map_eq_none_iff.mp h))
  | case4 c rest hquote hnot ih =>
    have hrest := ih (Option.map_eq_none_iff.mp h)
    by_cases hc : c = '\\'
    · -- A backslash that takes no character with it is the last one.
      subst hc
      cases rest with
      | nil => exact .lone
      | cons d rest => exact absurd rfl (hnot d rest rfl)
    · exact .plain hquote hc hrest

/-- A string, which ends at its quote or not at all. -/
theorem readString_fits (rest : List Char) : (readString rest).1.Fits (readString rest).2 := by
  unfold readString
  split
  · exact ⟨TokenKind.noConfusion, nofun⟩
  · rename_i h
    exact .string (unclosed_of_split? h)

/-- A number has digits, and perhaps a point with digits behind it. -/
theorem readNumber_fits {c : Char} (hc : c.isDigit = true) (rest : List Char) :
    (readNumber c rest).1.Fits (readNumber c rest).2 := by
  have hwhole : ∀ d ∈ c :: rest.takeWhile Char.isDigit, d.isDigit = true := by
    intro d hd
    rcases List.mem_cons.mp hd with rfl | hd
    · exact hc
    · exact List.mem_takeWhile_imp hd
  unfold readNumber
  dsimp only
  split
  · rename_i places after h
    -- A point is read only with a digit behind it.
    have hplaces : places ≠ [] ∧ ∀ d ∈ places, d.isDigit = true := by
      unfold splitFraction? at h
      split at h
      · split at h
        · cases h
        · cases h
          exact ⟨by assumption, fun d hd => List.mem_takeWhile_imp hd⟩
      · cases h
    exact ⟨TokenKind.noConfusion, fun x _ => ⟨_, List.cons_ne_nil _ _, hwhole, .inr
      ⟨places, hplaces.1, hplaces.2, rfl⟩⟩⟩
  · exact ⟨TokenKind.noConfusion, fun x _ => ⟨_, List.cons_ne_nil _ _, hwhole, .inl rfl⟩⟩

/-- A word is a keyword or a name. -/
theorem readName_fits (c : Char) (rest : List Char) : (readName c rest).1.Fits (readName c rest).2 := by
  refine ⟨readName_goes c rest, fun x hx => ?_⟩
  cases hk : Keyword.ofText? (String.ofList (c :: rest.takeWhile isNamePart)) with
  | none => rw [hk] at hx; cases hx
  | some keyword => rw [hk] at hx; cases hx

/-- With every mark of two characters the first one is a mark, too. -/
theorem singleMark?_of_mark (m : Mark) : ∀ c ∈ m.text.toList.head?, (singleMark? c).isSome = true := by
  intro c hc
  cases m <;> cases hc <;> rfl

/-- A mark, or a character with which nothing begins. -/
theorem readMark_fits {c : Char} (hblank : isBlank c = false) (hquote : c ≠ '"')
    (hdigit : c.isDigit = false) (hname : isNameStart c = false) (rest : List Char) :
    (readMark c rest).1.Fits (readMark c rest).2 := by
  unfold readMark
  split
  · exact ⟨TokenKind.noConfusion, nofun⟩
  · split
    · exact ⟨TokenKind.noConfusion, nofun⟩
    · rename_i hsingle
      -- No token and no gap begins with this character: every other reader has been ruled out before.
      refine .character rest ⟨fun hmem => ?_, hquote, hdigit, hname, fun m hm => ?_⟩
      · rw [isBlank_iff.mpr hmem] at hblank
        cases hblank
      · have hsome := singleMark?_of_mark m c hm
        rw [hsingle] at hsome
        cases hsome

/-- **The first piece of a text is what it is taken for.** -/
theorem nextPiece_fits (c : Char) (rest : List Char) :
    (nextPiece c rest).1.Fits (nextPiece c rest).2 := by
  -- The readers in the order in which the scanner tries them; each has a lemma of its own.
  unfold nextPiece
  split
  · rename_i hblank
    refine gap_of_blanks (fun d hd => ?_) _
    rcases List.mem_cons.mp hd with rfl | hd
    · exact hblank
    · exact List.mem_takeWhile_imp hd
  · rename_i hblank
    split
    · exact readString_fits rest
    · rename_i hquote
      split
      · rename_i hdigit
        exact readNumber_fits hdigit rest
      · rename_i hdigit
        split
        · exact readName_fits c rest
        · rename_i hname
          split
          · exact readLineComment_fits _
          · exact readBlockComment_fits _
          · rw [Bool.not_eq_true] at hblank hdigit hname
            exact readMark_fits hblank hquote hdigit hname rest

/-! ## All pieces of a text -/

/-- The pieces are cut from the text one behind the other. -/
inductive Cut : List Char → List Piece → Prop where
  | nil : Cut [] []
  | cons {piece : Piece} {after : List Char} {ps : List Piece} : piece.text ≠ [] → piece.Fits after →
    Cut after ps → Cut (piece.text ++ after) (piece :: ps)

/-- **The pieces of a text are cut from it, and nothing is left over.** -/
theorem pieces_cut (text : List Char) : Cut text (pieces text) := by
  induction hn : text.length using Nat.strong_induction_on generalizing text with
  | h n ih =>
    cases text with
    | nil => exact .nil
    | cons c rest =>
      have hlength := length_behind_nextPiece c rest
      have hrest := ih (nextPiece c rest).2.length
        (by rw [← hn, List.length_cons]; omega) (nextPiece c rest).2 rfl
      have hcut := Cut.cons (nextPiece_text_ne_nil c rest) (nextPiece_fits c rest) hrest
      rw [nextPiece_append] at hcut
      rw [pieces_cons]
      exact hcut

end Lox
