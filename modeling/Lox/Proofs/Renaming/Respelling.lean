import Mathlib.Data.List.Forall2
import Lox.Proofs.Scanning.Stretches

/-!
  A program text with a name in place of another.

  Where some occurrences of a name in a program text are replaced by another name the text is cut into the same
  pieces, but for these (`pieces_respelled`).

  A piece ends where it does because of what follows it.  So it has to be shown, for every way to read a piece,
  that it comes to the same end when the text behind it is respelled:

  1. Two texts have the same front (`Fronts`) if both are empty, begin with the same character, or begin with
     names.  This is what the text behind a piece and the respelled one have in common, for only names are
     replaced (`fronts_respelled`).
  2. A reader is `Kept` if it takes the same piece when the text behind is replaced by one with the same front.
     Blanks, words, comments, strings, numbers and marks each look at the text behind for the end of a stretch
     of characters or for one particular character, and no such question tells one name from another
     (`NameBlind`).
  3. The induction goes over the pieces: each is read as before, and a name that is replaced is read as the new
     one, since it ends where the old one did.

  `source_of_tokens` says the same the other way round: tokens respelled in this way are read from a source.
-/

namespace Lox

/-! ## Names -/

/-- The characters are those of a name. -/
def NameShape (text : List Char) : Prop :=
  ∃ c rest, text = c :: rest ∧ isNameStart c = true ∧ ∀ d ∈ rest, isNamePart d = true

/-- The text is a name that is not reserved. -/
structure IsIdentifier (x : String) : Prop where
  shape : NameShape x.toList
  free : Keyword.ofText? x = none

/-- What can begin a name can continue one. -/
theorem isNamePart_of_start {c : Char} (h : isNameStart c = true) : isNamePart c = true := by
  simp only [isNameStart, isNamePart, Char.isAlphanum, Bool.or_eq_true] at h ⊢
  exact h.imp_left .inl

/-- A name lies on one line. -/
theorem NameShape.newlines {text : List Char} (h : NameShape text) : text.count '\n' = 0 := by
  obtain ⟨c, rest, rfl, hc, hrest⟩ := h
  refine List.count_eq_zero.mpr fun hmem => ?_
  have hpart : isNamePart '\n' = true := by
    rcases List.mem_cons.mp hmem with heq | hmem
    · exact isNamePart_of_start (heq ▸ hc)
    · exact hrest _ hmem
  exact absurd hpart (by decide)

/-- If the piece is a name it has the characters of one. -/
def Piece.Named (p : Piece) : Prop := ∀ text, p = .lexeme .identifier text → NameShape text

/-- What is read as a name begins like one. -/
theorem start_of_identifier {c : Char} {rest text : List Char}
    (h : (nextPiece c rest).1 = .lexeme .identifier text) : isNameStart c = true := by
  -- All the other ways to read a piece give another kind, whatever they find.
  unfold nextPiece at h
  split at h
  · cases h
  · split at h
    · unfold readString at h
      split at h <;> cases h
    · split at h
      · unfold readNumber at h
        dsimp only at h
        split at h <;> cases h
      · split at h
        · assumption
        · split at h
          · cases h
          · unfold readBlockComment at h
            split at h <;> cases h
          · unfold readMark at h
            split at h
            · cases h
            · split at h <;> cases h

/-- What begins a name is no blank. -/
theorem isBlank_of_start {c : Char} (h : isNameStart c = true) : isBlank c = false := by
  refine Bool.eq_false_iff.mpr fun hblank => ?_
  have hmem := isBlank_iff.mp hblank
  simp only [List.mem_cons, List.not_mem_nil, or_false] at hmem
  rcases hmem with rfl | rfl | rfl | rfl <;> exact absurd h (by decide)

/-- What begins a name is no digit. -/
theorem isDigit_of_start {c : Char} (h : isNameStart c = true) : c.isDigit = false := by
  change ((decide ('A'.val ≤ c.val ∧ c.val ≤ 'Z'.val) ||
    decide ('a'.val ≤ c.val) && decide (c.val ≤ 'z'.val)) || c == '_') = true at h
  simp only [Bool.or_eq_true, Bool.and_eq_true, decide_eq_true_eq, beq_iff_eq] at h
  refine Bool.eq_false_iff.mpr fun hdigit => ?_
  simp only [Char.isDigit, Bool.and_eq_true, decide_eq_true_eq] at hdigit
  rcases h with (⟨hlow, -⟩ | ⟨hlow, -⟩) | rfl
  · exact absurd (UInt32.le_trans hlow hdigit.2) (by decide)
  · exact absurd (UInt32.le_trans hlow hdigit.2) (by decide)
  · exact absurd hdigit (by decide)

/-- No name starts with a character that is no letter and no low line. -/
theorem ne_of_start {c d : Char} (h : isNameStart c = true) (hd : isNameStart d = false) : c ≠ d := by
  rintro rfl
  rw [h] at hd
  cases hd

/-- What begins like a name is read as a name or a keyword. -/
theorem nextPiece_of_start {c : Char} (h : isNameStart c = true) (rest : List Char) :
    nextPiece c rest = readName c rest := by
  unfold nextPiece
  rw [if_neg (by simp [isBlank_of_start h]), if_neg (ne_of_start h (by decide)),
    if_neg (by simp [isDigit_of_start h]), if_pos h]

/-- A piece that is a name has the shape of one. -/
theorem nextPiece_named (c : Char) (rest : List Char) : (nextPiece c rest).1.Named := by
  intro text h
  have hc := start_of_identifier h
  rw [nextPiece_of_start hc] at h
  injection h with _ htext
  exact ⟨c, _, htext.symm, hc, fun _ hd => List.mem_takeWhile_imp hd⟩

/-- **Every name of a text has the characters of one.** -/
theorem pieces_named (text : List Char) : ∀ p ∈ pieces text, p.Named := by
  induction hn : text.length using Nat.strong_induction_on generalizing text with
  | h n ih =>
    cases text with
    | nil => exact nofun
    | cons c rest =>
      rw [pieces_cons]
      rintro p (_ | ⟨_, hp⟩)
      · exact nextPiece_named c rest
      · have hlength := length_behind_nextPiece c rest
        exact ih _ (by rw [← hn, List.length_cons]; omega) _ rfl p hp

/-! ## How texts begin

  Readers look only a few characters ahead, and do not look at which name it is that follows. -/

/-- The texts are the same up to a name in each of them, if there is one. -/
inductive Fronts : List Char → List Char → Prop where
  | nil : Fronts [] []
  | same (c : Char) {as bs : List Char} : Fronts as bs → Fronts (c :: as) (c :: bs)
  | name {c d : Char} {as bs : List Char} : isNameStart c = true → isNameStart d = true →
    Fronts (c :: as) (d :: bs)

/-- The predicate makes no difference between the characters with which a name starts. -/
def NameBlind (f : Char → Bool) : Prop :=
  ∀ c d, isNameStart c = true → isNameStart d = true → f c = f d

/-- The predicate does not go on with the text. -/
def StopsAt (f : Char → Bool) (text : List Char) : Prop := ∀ c ∈ text.head?, f c = false

/-- A predicate that fits no start of a name. -/
theorem nameBlind_of_false {f : Char → Bool} (h : ∀ c, isNameStart c = true → f c = false) : NameBlind f :=
  fun c d hc hd => (h c hc).trans (h d hd).symm

/-- A predicate that fits every start of a name. -/
theorem nameBlind_of_true {f : Char → Bool} (h : ∀ c, isNameStart c = true → f c = true) : NameBlind f :=
  fun c d hc hd => (h c hc).trans (h d hd).symm

/-- No name begins with a blank. -/
theorem isBlank_blind : NameBlind isBlank := nameBlind_of_false fun _ => isBlank_of_start

/-- No name begins with a digit. -/
theorem isDigit_blind : NameBlind Char.isDigit := nameBlind_of_false fun _ => isDigit_of_start

/-- Every name begins with a part of a name. -/
theorem isNamePart_blind : NameBlind isNamePart := nameBlind_of_true fun _ => isNamePart_of_start

/-- No name begins with the end of a line. -/
theorem ne_newline_blind : NameBlind (· ≠ '\n') :=
  nameBlind_of_true fun _ h => decide_eq_true (ne_of_start h (by decide))

namespace Fronts

variable {as bs : List Char}

/-- The same text before both is a common front, unless it is empty. -/
theorem append (text : List Char) (h : Fronts as bs) : Fronts (text ++ as) (text ++ bs) := by
  -- At the end of the stretch, and inside it.
  induction text with
  | nil => exact h
  | cons c text ih => exact .same c ih

/-- What does not go on with the one text does not go on with the other. -/
theorem stops (h : Fronts as bs) {f : Char → Bool} (hf : NameBlind f) (hs : StopsAt f as) : StopsAt f bs := by
  -- The end of the file is no name.
  cases h with
  | nil => exact nofun
  | same c _ =>
    rintro _ ⟨⟩
    exact hs c rfl
  | @name c d _ _ hc hd =>
    rintro _ ⟨⟩
    exact (hf d c hd hc).trans (hs c rfl)

/-- A character that starts no name and is not at the front of the one is not at that of the other. -/
theorem head_ne (h : Fronts as bs) {c : Char} (hc : isNameStart c = false) (has : as.head? ≠ some c) :
    bs.head? ≠ some c := by
  cases h with
  | nil => exact has
  | same d _ => exact has
  | @name _ d _ _ _ hd =>
    rintro ⟨⟩
    exact absurd rfl (ne_of_start hd hc)

end Fronts

/-- What is left behind a stretch begins with something else. -/
theorem stopsAt_dropWhile (f : Char → Bool) (text : List Char) : StopsAt f (text.dropWhile f) := by
  intro c hc
  have hstop := List.head?_dropWhile_not f text
  rw [Option.mem_def.mp hc] at hstop
  exact hstop

/-- A stretch ends where the predicate stops. -/
theorem span_stop {f : Char → Bool} {text after : List Char} (ht : ∀ c ∈ text, f c = true)
    (ha : StopsAt f after) :
    (text ++ after).takeWhile f = text ∧ (text ++ after).dropWhile f = after := by
  induction text with
  | nil =>
    cases after with
    | nil => exact ⟨rfl, rfl⟩
    | cons c after =>
      have hc : ¬ f c = true := by simp [ha c rfl]
      exact ⟨List.takeWhile_cons_of_neg hc, List.dropWhile_cons_of_neg hc⟩
  | cons c text ih =>
    have hc := ht c List.mem_cons_self
    obtain ⟨htake, hdrop⟩ := ih fun d hd => ht d (List.mem_cons_of_mem c hd)
    rw [List.cons_append, List.takeWhile_cons_of_pos hc, List.dropWhile_cons_of_pos hc, htake, hdrop]
    exact ⟨rfl, rfl⟩

/-- A stretch ends in the same place if what follows begins in the same way. -/
theorem span_fronts {f : Char → Bool} (hf : NameBlind f) {text bs : List Char}
    (h : Fronts (text.dropWhile f) bs) :
    (text.takeWhile f ++ bs).takeWhile f = text.takeWhile f ∧ (text.takeWhile f ++ bs).dropWhile f = bs :=
  span_stop (fun _ hc => List.mem_takeWhile_imp hc) (h.stops hf (stopsAt_dropWhile f text))

/-! ## Pieces before another text

  A piece stays as it is if what follows begins alike. -/

/-- With another text behind it that begins in the same way, the piece that is read is the same.  What is
    read begins behind the characters `lead`. -/
def Kept (read : List Char → Piece × List Char) (lead text : List Char) : Prop :=
  ∀ bs, Fronts (read text).2 bs →
    ∃ text', (read text).1.text ++ bs = lead ++ text' ∧ read text' = ((read text).1, bs)

/-- Blanks end at the first character that is none. -/
theorem readBlanks_kept (c : Char) (text : List Char) : Kept (readBlanks c) [c] text := by
  intro bs h
  obtain ⟨htake, hdrop⟩ := span_fronts isBlank_blind h
  exact ⟨text.takeWhile isBlank ++ bs, rfl, by rw [readBlanks, htake, hdrop]; rfl⟩

/-- A word ends at the first character that is no part of one. -/
theorem readName_kept (c : Char) (text : List Char) : Kept (readName c) [c] text := by
  intro bs h
  obtain ⟨htake, hdrop⟩ := span_fronts isNamePart_blind h
  exact ⟨text.takeWhile isNamePart ++ bs, rfl, by rw [readName, htake, hdrop]; rfl⟩

/-- A comment ends at the end of the line. -/
theorem readLineComment_kept (text : List Char) : Kept readLineComment ['/', '/'] text := by
  intro bs h
  obtain ⟨htake, hdrop⟩ := span_fronts ne_newline_blind h
  exact ⟨text.takeWhile (· ≠ '\n') ++ bs, rfl, by rw [readLineComment, htake, hdrop]; rfl⟩

/-- A string literal ends at the same quote, whatever follows. -/
theorem Text.Escaped.split?_behind {text body after : List Char} (h : split? text = some (body, after))
    (bs : List Char) : split? (body ++ '"' :: bs) = some (body, bs) := by
  fun_induction split? text generalizing body after with
  | case1 => cases h
  | case2 rest =>
    cases h
    rfl
  | case3 c rest ih =>
    obtain ⟨⟨b, a⟩, hs, he⟩ := Option.map_eq_some_iff.1 h
    cases he
    simp [split?, ih hs]
  | case4 c rest hquote hnot ih =>
    obtain ⟨⟨b, a⟩, hs, he⟩ := Option.map_eq_some_iff.1 h
    cases he
    have hrest := eq_of_split? hs
    have hplain : ∀ e others, c = '\\' → b ++ '"' :: bs = e :: others → False := by
      rintro e others hc heq
      -- Behind the backslash there is a character on both sides or on neither.
      cases b with
      | nil => exact hnot _ _ hc hrest
      | cons d b => exact hnot _ _ hc hrest
    rw [List.cons_append, split?.eq_4 _ _ hquote hplain, ih hs]
    rfl

/-- A string ends at its quote, which belongs to it: what follows does not matter. -/
theorem readString_kept (text : List Char) : Kept readString ['"'] text := by
  intro bs h
  unfold readString at h ⊢
  cases hs : Text.Escaped.split? text with
  | none =>
    rw [hs] at h
    cases h
    exact ⟨text, by rw [List.append_nil]; rfl, by rw [hs]⟩
  | some split =>
    obtain ⟨body, after⟩ := split
    exact ⟨body ++ '"' :: bs, by simp [Piece.text], by rw [Text.Escaped.split?_behind hs]⟩

/-- A comment ends at the same place, whatever follows. -/
theorem splitComment?_behind {text body after : List Char} (h : splitComment? text = some (body, after))
    (bs : List Char) : splitComment? (body ++ bs) = some (body, bs) := by
  fun_induction splitComment? text generalizing body after with
  | case1 => cases h
  | case2 rest =>
    cases h
    rfl
  | case3 c rest hnot ih =>
    obtain ⟨⟨b, a⟩, hs, he⟩ := Option.map_eq_some_iff.1 h
    cases he
    have hrest := eq_of_splitComment? hs
    have hopen : ∀ others, c = '*' → b ++ bs = '/' :: others → False := by
      rintro others hc heq
      -- What is left of the comment is not empty, so it begins in the same way.
      obtain ⟨inner, hinner, -⟩ := first_end_of_splitComment? hs
      cases b with
      | nil => simp at hinner
      | cons d b =>
        cases heq
        exact hnot _ hc hrest
    rw [List.cons_append, splitComment?.eq_3 _ _ hopen, ih hs]
    rfl

/-- A comment ends at its mark, which belongs to it. -/
theorem readBlockComment_kept (text : List Char) : Kept readBlockComment ['/', '*'] text := by
  intro bs h
  unfold readBlockComment at h ⊢
  cases hs : splitComment? text with
  | none =>
    rw [hs] at h
    cases h
    exact ⟨text, by rw [List.append_nil]; rfl, by rw [hs]⟩
  | some split =>
    obtain ⟨body, after⟩ := split
    exact ⟨body ++ bs, rfl, by rw [splitComment?_behind hs]⟩

/-- What begins with no point has no decimal places. -/
theorem splitFraction?_of_head {text : List Char} (h : text.head? ≠ some '.') : splitFraction? text = none := by
  unfold splitFraction?
  split
  · exact absurd rfl h
  · rfl

/-- Without decimal places there are none if the text goes on in the same way. -/
theorem Fronts.splitFraction? {as bs : List Char} (h : Fronts as bs) (ha : splitFraction? as = none) :
    splitFraction? bs = none := by
  by_cases hpoint : as.head? = some '.'
  · cases h with
    | nil => cases hpoint
    | name hc _ =>
      cases hpoint
      exact absurd hc (by decide)
    | @same _ as bs h =>
      cases hpoint
      -- Behind the point there is no digit on the one side, so there is none on the other.
      simp only [Lox.splitFraction?, ite_eq_left_iff, reduceCtorEq, imp_false, not_not] at ha ⊢
      have hdrop := List.takeWhile_append_dropWhile (p := Char.isDigit) (l := as)
      have hstop := stopsAt_dropWhile Char.isDigit as
      rw [ha, List.nil_append] at hdrop
      rw [hdrop] at hstop
      exact (span_stop (List.forall_mem_nil _) (h.stops isDigit_blind hstop)).1
  · exact splitFraction?_of_head (h.head_ne (by decide) hpoint)

/-- Decimal places end at the same place if what follows begins in the same way. -/
theorem splitFraction?_behind {text places after : List Char} (h : splitFraction? text = some (places, after))
    {bs : List Char} (hb : Fronts after bs) : splitFraction? ('.' :: places ++ bs) = some (places, bs) := by
  unfold splitFraction? at h
  split at h
  · split at h
    · cases h
    · rename_i rest hsome
      cases h
      obtain ⟨htake, hdrop⟩ := span_fronts isDigit_blind hb
      rw [List.cons_append, splitFraction?.eq_1, htake, hdrop, if_neg hsome]
  · cases h

/-- A number ends at the first character that does not belong to it, and whether a point belongs to it depends
    on the character behind the point. -/
theorem readNumber_kept (c : Char) (text : List Char) : Kept (readNumber c) [c] text := by
  intro bs h
  unfold readNumber at h ⊢
  dsimp only at h ⊢
  -- Without a fraction the text behind is looked at twice, for a point and for a digit behind it; with one
  -- the digits before it end at its point.
  cases hs : splitFraction? (text.dropWhile Char.isDigit) with
  | none =>
    rw [hs] at h
    obtain ⟨htake, hdrop⟩ := span_fronts isDigit_blind h
    refine ⟨text.takeWhile Char.isDigit ++ bs, rfl, ?_⟩
    rw [htake, hdrop, h.splitFraction? hs]
  | some split =>
    obtain ⟨places, after⟩ := split
    rw [hs] at h
    have hwhole : ∀ d ∈ text.takeWhile Char.isDigit, d.isDigit = true :=
      fun d hd => List.mem_takeWhile_imp hd
    have hpoint : StopsAt Char.isDigit ('.' :: places ++ bs) := by
      rintro _ ⟨⟩
      rfl
    obtain ⟨htake, hdrop⟩ := span_stop hwhole hpoint
    refine ⟨text.takeWhile Char.isDigit ++ ('.' :: places ++ bs), by simp [Piece.text], ?_⟩
    rw [htake, hdrop, splitFraction?_behind hs h]

/-- A character behind which no equals sign stands is no part of a longer mark. -/
theorem splitDouble?_of_head (c : Char) {text : List Char} (h : text.head? ≠ some '=') :
    splitDouble? c text = none := by
  unfold splitDouble?
  split
  · exact absurd rfl h
  · rfl

/-- A mark that is not longer is not longer if the text goes on in the same way. -/
theorem Fronts.splitDouble? {as bs : List Char} (h : Fronts as bs) {c : Char}
    (ha : splitDouble? c as = none) : splitDouble? c bs = none := by
  -- An equals sign is no name, so that it is there before and behind the replacement, or in neither case.
  by_cases hequals : as.head? = some '='
  · cases h with
    | nil => cases hequals
    | name hc _ =>
      cases hequals
      exact absurd hc (by decide)
    | same _ _ =>
      cases hequals
      rw [Lox.splitDouble?, Option.map_eq_none_iff] at ha ⊢
      exact ha
  · exact splitDouble?_of_head c (h.head_ne (by decide) hequals)

/-- A mark has one character or two, the second of which is an equals sign. -/
theorem readMark_kept (c : Char) (text : List Char) : Kept (readMark c) [c] text := by
  intro bs h
  unfold readMark at h ⊢
  -- The equals sign would have been found before; or it belongs to the mark.
  cases hs : splitDouble? c text with
  | none =>
    rw [hs] at h
    cases hm : singleMark? c with
    | none =>
      rw [hm] at h
      exact ⟨bs, rfl, by rw [h.splitDouble? hs]⟩
    | some m =>
      rw [hm] at h
      exact ⟨bs, rfl, by rw [h.splitDouble? hs]⟩
  | some split =>
    obtain ⟨m, after⟩ := split
    rw [hs] at h
    obtain rfl := eq_of_splitDouble? hs
    refine ⟨'=' :: bs, rfl, ?_⟩
    rw [splitDouble?, Option.map_eq_some_iff] at hs
    obtain ⟨_, hd, ⟨⟩⟩ := hs
    rw [splitDouble?, hd]
    rfl

/-- A stroke is no part of a longer mark. -/
theorem readMark_stroke (text : List Char) :
    (readMark '/' text).1.text = ['/'] ∧ (readMark '/' text).2 = text := by
  have hnone : splitDouble? '/' text = none := by
    unfold splitDouble?
    split
    · rfl
    · rfl
  unfold readMark
  rw [hnone]
  exact ⟨rfl, rfl⟩

/-- **The first piece of a text is the same before another text that begins in the same way.** -/
theorem nextPiece_kept (c : Char) (text : List Char) : Kept (nextPiece c) [c] text := by
  have hsame : ∀ {read}, (∀ text, nextPiece c text = read text) → Kept read [c] text →
      Kept (nextPiece c) [c] text := by
    intro read hread h
    rwa [show nextPiece c = read from funext hread]
  by_cases hblank : isBlank c = true
  · exact hsame (fun text => if_pos hblank) (readBlanks_kept c text)
  by_cases hquote : c = '"'
  · subst hquote
    exact readString_kept text
  by_cases hdigit : c.isDigit = true
  · refine hsame (fun text => ?_) (readNumber_kept c text)
    unfold nextPiece
    rw [if_neg hblank, if_neg hquote, if_pos hdigit]
  by_cases hname : isNameStart c = true
  · refine hsame (fun text => ?_) (readName_kept c text)
    unfold nextPiece
    rw [if_neg hblank, if_neg hquote, if_neg hdigit, if_pos hname]
  rw [Bool.not_eq_true] at hblank hdigit hname
  intro bs h
  by_cases hcomment : ∃ d after, c = '/' ∧ text = d :: after ∧ (d = '/' ∨ d = '*')
  · obtain ⟨d, after, rfl, rfl, rfl | rfl⟩ := hcomment
    · obtain ⟨text', htext, hread⟩ := readLineComment_kept after bs h
      exact ⟨'/' :: text', htext, hread⟩
    · obtain ⟨text', htext, hread⟩ := readBlockComment_kept after bs h
      exact ⟨'*' :: text', htext, hread⟩
  · have hmark : nextPiece c text = readMark c text :=
      nextPiece_mark hblank hquote hdigit hname fun d after hc ht =>
        ⟨fun hd => hcomment ⟨d, after, hc, ht, .inl hd⟩, fun hd => hcomment ⟨d, after, hc, ht, .inr hd⟩⟩
    rw [hmark] at h ⊢
    obtain ⟨text', htext, hread⟩ := readMark_kept c text bs h
    refine ⟨text', htext, ?_⟩
    rw [← hread]
    refine nextPiece_mark hblank hquote hdigit hname fun d after hc ht => ?_
    -- A stroke alone is followed by neither a stroke nor a star, and so it is before the other text.
    subst hc
    obtain ⟨hpiece, hafter⟩ := readMark_stroke text
    rw [hafter] at h
    rw [hpiece] at htext
    cases htext
    have hnone : ∀ e, e = '/' ∨ e = '*' → text.head? ≠ some e := by
      intro e he htext
      obtain ⟨rest, hrest⟩ := List.head?_eq_some_iff.mp htext
      exact hcomment ⟨e, rest, rfl, hrest, he⟩
    have hstroke := h.head_ne (by decide) (hnone '/' (.inl rfl))
    have hstar := h.head_ne (by decide) (hnone '*' (.inr rfl))
    rw [ht] at hstroke hstar
    exact ⟨fun hd => hstroke (congrArg some hd), fun hd => hstar (congrArg some hd)⟩

/-! ## Another name

  Exchanging names for names leaves all pieces between them. -/

/-- The piece is the same, or it is the old name and the new one takes its place. -/
inductive Piece.Respelled (old new : String) : Piece → Piece → Prop where
  | same (p : Piece) : Respelled old new p p
  | name : Respelled old new (.lexeme .identifier old.toList) (.lexeme .identifier new.toList)

/-- The text that is made up of the pieces. -/
def spell (ps : List Piece) : List Char := ps.flatMap Piece.text

/-- The pieces of a text are the text. -/
theorem spell_pieces (text : List Char) : spell (pieces text) = text := by
  induction hn : text.length using Nat.strong_induction_on generalizing text with
  | h n ih =>
    cases text with
    | nil => rfl
    | cons c rest =>
      have hlength := length_behind_nextPiece c rest
      have hrest := ih _ (by rw [← hn, List.length_cons]; omega) (nextPiece c rest).2 rfl
      rw [pieces_cons]
      show (nextPiece c rest).1.text ++ spell (pieces (nextPiece c rest).2) = c :: rest
      rw [hrest, nextPiece_append]

section Respelled

variable {old new : String}

/-- With another name the text begins in the same way. -/
theorem fronts_respelled (hnew : NameShape new.toList) {ps ps' : List Piece} (hps : ∀ p ∈ ps, p.Named)
    (h : List.Forall₂ (Piece.Respelled old new) ps ps') : Fronts (spell ps) (spell ps') := by
  induction h with
  | nil => exact .nil
  | @cons p _ _ _ hp _ ih =>
    cases hp with
    | same => exact (ih fun q hq => hps q (List.mem_cons_of_mem p hq)).append p.text
    | name =>
      obtain ⟨c, rest, hold, hc, -⟩ := hps _ List.mem_cons_self _ rfl
      obtain ⟨d, rest', hnew, hd, -⟩ := hnew
      simp only [spell, List.flatMap_cons, Piece.text, hold, hnew]
      exact .name hc hd

/-- A name that is not reserved is read where the text does not go on with it. -/
theorem nextPiece_identifier {c : Char} {rest bs : List Char} (hnew : IsIdentifier new)
    (htext : new.toList = c :: rest) (hb : StopsAt isNamePart bs) :
    nextPiece c (rest ++ bs) = (.lexeme .identifier new.toList, bs) := by
  obtain ⟨⟨d, rest', hshape, hd, hrest⟩, hfree⟩ := hnew
  rw [htext] at hshape
  cases hshape
  obtain ⟨htake, hdrop⟩ := span_stop hrest hb
  rw [nextPiece_of_start hd, readName, htake, hdrop, ← htext, String.ofList_toList, hfree]
  rfl

/-- **With another name a text is cut into the same pieces**, but for the name. -/
theorem pieces_respelled (hnew : IsIdentifier new) {text : List Char} {ps : List Piece}
    (h : List.Forall₂ (Piece.Respelled old new) (pieces text) ps) : pieces (spell ps) = ps := by
  -- By the length of the text, since what is left behind a piece is no part of it as a list.
  induction hn : text.length using Nat.strong_induction_on generalizing text ps with
  | h n ih =>
    cases text with
    | nil =>
      cases h
      rfl
    | cons c rest =>
      have hlength := length_behind_nextPiece c rest
      have hkept := nextPiece_kept c rest
      -- Behind a name comes something that does not continue it.
      have hname : ∀ name, (nextPiece c rest).1 = .lexeme .identifier name →
          StopsAt isNamePart (nextPiece c rest).2 := by
        intro name hpiece
        rw [nextPiece_of_start (start_of_identifier hpiece)]
        exact stopsAt_dropWhile isNamePart rest
      unfold Kept at hkept
      rw [pieces_cons] at h
      generalize (nextPiece c rest).1 = piece, (nextPiece c rest).2 = after at *
      cases h with
      | @cons _ piece' _ qs hp hqs =>
        have hrest := ih _ (by rw [← hn, List.length_cons]; omega) hqs rfl
        have hfronts := fronts_respelled hnew.shape (pieces_named after) hqs
        rw [spell_pieces] at hfronts
        cases hp with
        -- The piece is as it was, and read in front of other pieces as in front of its own.
        | same =>
          obtain ⟨text', htext, hread⟩ := hkept _ hfronts
          show pieces (piece.text ++ spell qs) = piece :: qs
          rw [htext, List.singleton_append, pieces_cons, hread, hrest]
        | name =>
          obtain ⟨d, rest', hspelled, -, -⟩ := hnew.shape
          have hread := nextPiece_identifier hnew hspelled (hfronts.stops isNamePart_blind (hname _ rfl))
          show pieces (new.toList ++ spell qs) = _
          rw [hspelled, List.cons_append, pieces_cons, hread, hrest, hspelled]

/-! ## Tokens with another name -/

/-- The token is the same, or it is the old name and the new one takes its place. -/
def Token.Respelled (old new : String) (t t' : Token) : Prop :=
  t' = t ∨ (t.kind = .identifier ∧ t.lexeme = old) ∧ t' = { t with lexeme := new }

/-- A name in place of another does not change on which line the text goes on. -/
theorem Piece.Respelled.newlines {p p' : Piece} (h : p.Respelled old new p') (hp : p.Named)
    (hnew : NameShape new.toList) : p'.newlines = p.newlines := by
  cases h with
  | same => rfl
  | name => exact hnew.newlines.trans (hp _ rfl).newlines.symm

/-- Where names take the place of tokens of a text, they take that of its pieces. -/
theorem pieces_of_tokens (hnew : NameShape new.toList) {ps : List Piece} (hps : ∀ p ∈ ps, p.Named) {line : Nat}
    (hf : faultsOf (itemsFrom line ps) = []) {ts : List Token}
    (h : List.Forall₂ (Token.Respelled old new) (tokensOf (itemsFrom line ps)) ts) :
    ∃ ps', List.Forall₂ (Piece.Respelled old new) ps ps' ∧ tokensOf (itemsFrom line ps') = ts ∧
      faultsOf (itemsFrom line ps') = [] := by
  induction ps generalizing line ts with
  | nil =>
    refine ⟨[], .nil, ?_, rfl⟩
    cases h with
    | cons ht hts =>
      cases hts
      rcases ht with rfl | ⟨⟨hkind, -⟩, -⟩
      · rfl
      · cases hkind
  | cons p ps ih =>
    have hrest := fun q hq => hps q (List.mem_cons_of_mem p hq)
    cases p with
    | gap text =>
      obtain ⟨ps', hps', hts, hfaults⟩ := ih hrest hf h
      exact ⟨.gap text :: ps', .cons (.same _) hps', hts, hfaults⟩
    | fault cause text => cases hf
    | lexeme kind text =>
      cases h with
      | @cons _ t _ ts ht htokens =>
        obtain ⟨ps', hps', hts, hfaults⟩ := ih hrest hf htokens
        -- The token is the same, or it is the name and its lexeme is exchanged.
        rcases ht with rfl | ⟨⟨hkind, hlexeme⟩, rfl⟩
        · exact ⟨.lexeme kind text :: ps', .cons (.same _) hps', congrArg _ hts, hfaults⟩
        · have hkind' : kind = .identifier := hkind
          have htext : text = old.toList := by rw [← hlexeme, String.toList_ofList]
          subst hkind' htext
          have hpiece : Piece.Respelled old new (.lexeme .identifier old.toList)
              (.lexeme .identifier new.toList) := .name
          refine ⟨.lexeme .identifier new.toList :: ps', .cons hpiece hps', ?_, ?_⟩
          · rw [itemsFrom, hpiece.newlines (hps _ List.mem_cons_self) hnew, String.ofList_toList]
            exact congrArg _ hts
          · rw [itemsFrom, hpiece.newlines (hps _ List.mem_cons_self) hnew]
            exact hfaults

/-- **Where a name takes the place of another among the tokens of a source, there is a source with these
    tokens**, and it is the same but for the name. -/
theorem source_of_tokens (hnew : IsIdentifier new) {source : String} (hf : faultsOf (items source) = [])
    {ts : List Token} (h : List.Forall₂ (Token.Respelled old new) (tokensOf (items source)) ts) :
    ∃ source' : String, List.Forall₂ (Piece.Respelled old new) (pieces source.toList) (pieces source'.toList) ∧
      tokensOf (items source') = ts ∧ faultsOf (items source') = [] := by
  obtain ⟨ps, hps, hts, hfaults⟩ := pieces_of_tokens hnew.shape (pieces_named _) hf h
  have hpieces : pieces (String.ofList (spell ps)).toList = ps := by
    rw [String.toList_ofList, pieces_respelled hnew hps]
  refine ⟨String.ofList (spell ps), ?_⟩
  rw [items, hpieces]
  exact ⟨hps, hts, hfaults⟩

end Respelled

end Lox
