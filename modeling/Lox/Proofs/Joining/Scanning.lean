import Mathlib.Data.List.TakeWhile
import Lox.Lexeme

/-!
  Reading the characters of one text behind another.

  A text that is read without a fault ends between two pieces.  With a newline and a further text behind it, it
  brings up the same tokens, and then come the items of the further text, on lines that are counted on
  (`itemsAt_join`).  Text that starts on a later line brings up the same items on later lines (`itemsAt_raise`).

  The point is the last piece of the first text: what would have gone on to the end of it now meets a newline.

  * A reader that `EndsBefore` a newline takes the same piece, and leaves the newline with what follows.  Words,
    numbers, marks and comments to the end of their line do, because a newline belongs to none of them; strings
    and comments over lines do if they are closed, and in a text without a fault they are.
  * A blank is the exception: the newline joins the blanks at the end of the text (`itemsAt_blanks`), which makes
    one gap instead of two and no other items.

  The induction goes over the length of the text, piece by piece.
-/

namespace Lox

/-- The items of a text that starts on a line. -/
def itemsAt (line : Nat) (text : List Char) : List Item := itemsFrom line (pieces text)

/-! ## Pieces, one after the other -/

/-- Every piece has a character. -/
theorem nextPiece_text_ne_nil (c : Char) (rest : List Char) : (nextPiece c rest).1.text ≠ [] := by
  unfold nextPiece readBlanks readString readNumber readName readLineComment readBlockComment readMark
  simp only
  repeat' split
  all_goals exact List.cons_ne_nil _ _

/-- What is behind a piece is shorter than the text. -/
theorem length_behind_nextPiece (c : Char) (rest : List Char) :
    (nextPiece c rest).2.length ≤ rest.length := by
  have hlength := congrArg List.length (nextPiece_append c rest)
  have hpos := List.length_pos_iff.mpr (nextPiece_text_ne_nil c rest)
  rw [List.length_append, List.length_cons] at hlength
  omega

/-- How many pieces are allowed for does not matter. -/
theorem upTo_eq {count count' : Nat} {text : List Char} (h : text.length ≤ count)
    (h' : text.length ≤ count') : pieces.upTo count text = pieces.upTo count' text := by
  -- The bound only has to be large enough.
  induction count generalizing count' text with
  | zero =>
    cases List.length_eq_zero_iff.mp (Nat.le_zero.mp h)
    cases count' <;> rfl
  | succ count ih =>
    cases text with
    | nil => cases count' <;> rfl
    | cons c rest =>
      cases count' with
      | zero => cases h'
      | succ count' =>
        have hbehind := length_behind_nextPiece c rest
        have hrest := Nat.le_of_succ_le_succ h
        have hrest' := Nat.le_of_succ_le_succ h'
        exact congrArg _ (ih (Nat.le_trans hbehind hrest) (Nat.le_trans hbehind hrest'))

/-- The pieces of a text: the first one, and those of what is behind it. -/
theorem pieces_cons (c : Char) (rest : List Char) :
    pieces (c :: rest) = (nextPiece c rest).1 :: pieces (nextPiece c rest).2 :=
  congrArg _ (upTo_eq (length_behind_nextPiece c rest) (Nat.le_refl _))

/-! ## Blanks -/

/-- The items behind blanks. -/
theorem itemsAt_blanks (line : Nat) (text : List Char) :
    itemsAt line text = itemsAt (line + (text.takeWhile isBlank).count '\n') (text.dropWhile isBlank) := by
  cases text with
  | nil => rfl
  | cons c rest =>
    by_cases hc : isBlank c = true
    · have hpiece : nextPiece c rest = readBlanks c rest := if_pos hc
      rw [itemsAt, pieces_cons, hpiece, List.takeWhile_cons_of_pos hc, List.dropWhile_cons_of_pos hc]
      rfl
    · rw [List.takeWhile_cons_of_neg hc, List.dropWhile_cons_of_neg hc]
      rfl

/-- One blank more or less only counts as a line if it ends one. -/
theorem itemsAt_blank {c : Char} (hc : isBlank c = true) (line : Nat) (text : List Char) :
    itemsAt line (c :: text) = itemsAt (line + [c].count '\n') text := by
  rw [itemsAt_blanks, List.takeWhile_cons_of_pos hc, List.dropWhile_cons_of_pos hc,
    itemsAt_blanks (line + _) text, ← List.singleton_append, List.count_append, Nat.add_assoc]

/-! ## Pieces before a newline

  A piece that ends before a newline is cut off in the same way if something else follows on the newline. -/

section Newline

variable {p : Char → Bool} (hp : p '\n' = false) (text behind : List Char)
include hp

/-- A stretch without newlines ends before the newline. -/
theorem takeWhile_newline : (text ++ '\n' :: behind).takeWhile p = text.takeWhile p := by
  induction text with
  | nil => simp [hp]
  | cons c text ih => by_cases hc : p c = true <;> simp [hc, ih]

/-- And leaves it to what is behind. -/
theorem dropWhile_newline : (text ++ '\n' :: behind).dropWhile p = text.dropWhile p ++ '\n' :: behind := by
  induction text with
  | nil => simp [hp]
  | cons c text ih => by_cases hc : p c = true <;> simp [hc, ih]

end Newline

variable {c : Char} {text behind : List Char}

/-- The first end of a comment is found where it was, whatever follows. -/
theorem splitComment?_append {body after : List Char} (h : splitComment? text = some (body, after)) :
    splitComment? (text ++ behind) = some (body, after ++ behind) := by
  -- Along the search: at the end of the comment, and one character before it.
  fun_induction splitComment? text generalizing body after with
  | case1 => cases h
  | case2 rest =>
    cases h
    rfl
  | case3 c rest hnot ih =>
    obtain ⟨⟨b, a⟩, hs, he⟩ := Option.map_eq_some_iff.1 h
    cases he
    cases rest with
    | nil => cases hs
    | cons d rest =>
      have hopen : ∀ others, c = '*' → d :: (rest ++ behind) = '/' :: others → False := by
        rintro others hc ⟨⟩
        exact hnot rest hc rfl
      have hbehind := ih hs
      rw [List.cons_append] at hbehind
      rw [List.cons_append, List.cons_append, splitComment?.eq_3 _ _ hopen, hbehind]
      rfl

/-- The closing quote is found where it was, whatever follows. -/
theorem Text.Escaped.split?_append {body after : List Char} (h : split? text = some (body, after)) :
    split? (text ++ behind) = some (body, after ++ behind) := by
  fun_induction split? text generalizing body after with
  | case1 => cases h
  | case2 rest =>
    cases h
    rfl
  | case3 c rest ih =>
    obtain ⟨⟨b, a⟩, hs, he⟩ := Option.map_eq_some_iff.1 h
    cases he
    simp [split?, ih hs]
  | case4 c rest hquote hnot ih =>
    obtain ⟨⟨b, a⟩, hs, he⟩ := Option.map_eq_some_iff.1 h
    cases he
    cases rest with
    | nil => cases hs
    | cons d rest =>
      -- What is appended makes no escape of a character that was none.
      have hplain : ∀ e others, c = '\\' → d :: (rest ++ behind) = e :: others → False := by
        rintro e others hc ⟨⟩
        exact hnot d rest hc rfl
      have hbehind := ih hs
      rw [List.cons_append] at hbehind
      rw [List.cons_append, List.cons_append, split?.eq_4 _ _ hquote hplain, hbehind]
      rfl

/-- The piece is no fault. -/
def Piece.IsRead : Piece → Prop
  | .fault .. => False
  | _ => True

/-- A piece that is read ends before a newline as before the end of the text. -/
def EndsBefore (read : List Char → Piece × List Char) (rest behind : List Char) : Prop :=
  (read rest).1.IsRead → read (rest ++ '\n' :: behind) = ((read rest).1, (read rest).2 ++ '\n' :: behind)

/-- A string that is closed ends before what follows. -/
theorem readString_newline : EndsBefore readString text behind := by
  intro h
  unfold readString at h ⊢
  cases hs : Text.Escaped.split? text with
  | none =>
    rw [hs] at h
    cases h
  | some split => rw [Text.Escaped.split?_append hs]

/-- So does a comment that is closed. -/
theorem readBlockComment_newline : EndsBefore readBlockComment text behind := by
  intro h
  unfold readBlockComment at h ⊢
  cases hs : splitComment? text with
  | none =>
    rw [hs] at h
    cases h
  | some split => rw [splitComment?_append hs]

/-- Whether there is a fraction is seen before the newline. -/
theorem splitFraction?_newline (text behind : List Char) : splitFraction? (text ++ '\n' :: behind) =
    (splitFraction? text).map fun (places, after) => (places, after ++ '\n' :: behind) := by
  have htake := fun text => takeWhile_newline (show Char.isDigit '\n' = false from rfl) text behind
  have hdrop := fun text => dropWhile_newline (show Char.isDigit '\n' = false from rfl) text behind
  cases text with
  | nil => rfl
  | cons c text =>
    by_cases hc : c = '.'
    · subst hc
      simp only [List.cons_append, splitFraction?, htake, hdrop]
      split <;> rfl
    · have hnone : ∀ text, splitFraction? (c :: text) = none := by
        intro text
        unfold splitFraction?
        split
        · rename_i heq
          cases heq
          exact absurd rfl hc
        · rfl
      rw [List.cons_append, hnone, hnone]
      rfl

/-- No digit and no point is a newline. -/
theorem readNumber_newline : EndsBefore (readNumber c) text behind := by
  intro _
  have htake := takeWhile_newline (show Char.isDigit '\n' = false from rfl) text behind
  have hdrop := dropWhile_newline (show Char.isDigit '\n' = false from rfl) text behind
  simp only [readNumber, htake, hdrop, splitFraction?_newline]
  cases splitFraction? (text.dropWhile Char.isDigit) <;> rfl

/-- No part of a name is a newline. -/
theorem readName_newline : EndsBefore (readName c) text behind := by
  intro _
  have hpart : isNamePart '\n' = false := rfl
  simp only [readName, takeWhile_newline hpart, dropWhile_newline hpart]

/-- It ends at the newline. -/
theorem readLineComment_newline : EndsBefore readLineComment text behind := by
  intro _
  have hstop : decide ('\n' ≠ '\n') = false := rfl
  simp only [readLineComment]
  rw [takeWhile_newline hstop, dropWhile_newline hstop]

/-- No mark goes on with a newline. -/
theorem readMark_newline : EndsBefore (readMark c) text behind := by
  intro _
  have hsplit : splitDouble? c (text ++ '\n' :: behind) =
      (splitDouble? c text).map fun (m, after) => (m, after ++ '\n' :: behind) := by
    cases text with
    | nil => rfl
    | cons d text =>
      by_cases hd : d = '='
      · subst hd
        simp only [List.cons_append, splitDouble?, Option.map_map]
        rfl
      · have hnone : ∀ text, splitDouble? c (d :: text) = none := by
          intro text
          unfold splitDouble?
          split
          · rename_i heq
            cases heq
            exact absurd rfl hd
          · rfl
        rw [List.cons_append, hnone, hnone]
        rfl
  simp only [readMark, hsplit]
  cases splitDouble? c text with
  | some split => rfl
  | none => cases singleMark? c <;> rfl

/-- What a stroke begins depends on the character behind it. -/
theorem nextPiece_mark (hblank : isBlank c = false) (hquote : c ≠ '"') (hdigit : c.isDigit = false)
    (hname : isNameStart c = false) (hcomment : ∀ d after, c = '/' → text = d :: after → d ≠ '/' ∧ d ≠ '*') :
    nextPiece c text = readMark c text := by
  unfold nextPiece
  rw [if_neg (by simp [hblank]), if_neg hquote, if_neg (by simp [hdigit]), if_neg (by simp [hname])]
  split
  · exact absurd rfl (hcomment _ _ rfl rfl).1
  · exact absurd rfl (hcomment _ _ rfl rfl).2
  · rfl

/-- **A piece that is read ends before a newline as before the end of the text**, unless it is blank. -/
theorem nextPiece_newline (hblank : isBlank c = false) : EndsBefore (nextPiece c) text behind := by
  -- By the first character, as the scanner decides.
  by_cases hquote : c = '"'
  · subst hquote
    exact readString_newline
  by_cases hdigit : c.isDigit = true
  · have hread : ∀ text, nextPiece c text = readNumber c text := fun text => by
      unfold nextPiece
      rw [if_neg (by simp [hblank]), if_neg hquote, if_pos hdigit]
    unfold EndsBefore
    rw [hread, hread]
    exact readNumber_newline
  by_cases hname : isNameStart c = true
  · have hread : ∀ text, nextPiece c text = readName c text := fun text => by
      unfold nextPiece
      rw [if_neg (by simp [hblank]), if_neg hquote, if_neg hdigit, if_pos hname]
    unfold EndsBefore
    rw [hread, hread]
    exact readName_newline
  rw [Bool.not_eq_true] at hdigit hname
  by_cases hcomment : ∃ d after, c = '/' ∧ text = d :: after ∧ (d = '/' ∨ d = '*')
  · obtain ⟨d, after, rfl, rfl, rfl | rfl⟩ := hcomment
    · exact readLineComment_newline
    · exact readBlockComment_newline
  · have hnone : ∀ d after, c = '/' → text = d :: after → d ≠ '/' ∧ d ≠ '*' := by
      intro d after hc ht
      refine ⟨fun hd => hcomment ⟨d, after, hc, ht, .inl hd⟩, fun hd => hcomment ⟨d, after, hc, ht, .inr hd⟩⟩
    have hnewline : ∀ d after, c = '/' → text ++ '\n' :: behind = d :: after → d ≠ '/' ∧ d ≠ '*' := by
      intro d after hc ht
      cases text with
      | nil =>
        cases ht
        decide
      | cons e text =>
        cases ht
        exact hnone d text hc rfl
    unfold EndsBefore
    rw [nextPiece_mark hblank hquote hdigit hname hnone, nextPiece_mark hblank hquote hdigit hname hnewline]
    exact readMark_newline

/-! ## Texts with a newline between them -/

/-- The piece is no end of a program. -/
def Piece.Goes : Piece → Prop
  | .lexeme kind _ => kind ≠ .eof
  | _ => True

/-- A word never fails. -/
theorem readName_goes (c : Char) (rest : List Char) : (readName c rest).1.Goes := by
  simp only [readName, Piece.Goes]
  cases Keyword.ofText? (String.ofList (c :: rest.takeWhile isNamePart)) with
  | none => exact TokenKind.noConfusion
  | some keyword => exact TokenKind.noConfusion

/-- A piece that is no fault goes into the items. -/
theorem nextPiece_goes (c : Char) (rest : List Char) : (nextPiece c rest).1.Goes := by
  have hname := readName_goes c rest
  unfold nextPiece readBlanks readString readNumber readLineComment readBlockComment readMark
  simp only
  repeat' split
  all_goals first | exact hname | trivial | exact TokenKind.noConfusion

theorem itemsAt_cons (line : Nat) (c : Char) (rest : List Char) :
    itemsAt line (c :: rest) = itemsFrom line ((nextPiece c rest).1 :: pieces (nextPiece c rest).2) := by
  rw [itemsAt, pieces_cons]

/-- **A text without a fault brings up tokens and its end; with a newline and more text behind it it
    brings up the same tokens, and then the items of that text.** -/
theorem itemsAt_join {line : Nat} {text : List Char} (h : faultsOf (itemsAt line text) = []) :
    ∃ ts : List Token, (∀ t ∈ ts, t.isEof = false) ∧
      itemsAt line text = ts.map .token ++ [.token (.finish (line + text.count '\n'))] ∧
      ∀ behind, itemsAt line (text ++ '\n' :: behind) =
        ts.map .token ++ itemsAt (line + text.count '\n' + 1) behind := by
  induction hn : text.length using Nat.strong_induction_on generalizing line text with
  | h n ih =>
    cases text with
    | nil => exact ⟨[], nofun, rfl, fun behind => itemsAt_blank rfl line behind⟩
    | cons c rest =>
      by_cases hc : isBlank c = true
      · -- Blanks may go on behind the text, so they are taken one at a time.
        rw [itemsAt_blank hc] at h ⊢
        obtain ⟨ts, hts, hitems, hjoin⟩ := ih rest.length (by rw [← hn]; exact Nat.lt_succ_self _) h rfl
        have hcount : (c :: rest).count '\n' = [c].count '\n' + rest.count '\n' :=
          @List.count_append _ _ _ [c] rest
        rw [hcount, ← Nat.add_assoc]
        refine ⟨ts, hts, hitems, fun behind => ?_⟩
        rw [List.cons_append, itemsAt_blank hc]
        exact hjoin behind
      · rw [Bool.not_eq_true] at hc
        have hlength : (nextPiece c rest).2.length < n := by
          rw [← hn]
          exact Nat.lt_succ_of_le (length_behind_nextPiece c rest)
        have hcount : (c :: rest).count '\n' =
            (nextPiece c rest).1.newlines + (nextPiece c rest).2.count '\n' := by
          rw [Piece.newlines, ← List.count_append, nextPiece_append]
        -- Any other piece that is no fault ends where it ends without a newline and more behind it.
        have hnewline : ∀ behind, EndsBefore (nextPiece c) rest behind := fun _ => nextPiece_newline hc
        have hgoes := nextPiece_goes c rest
        rw [itemsAt_cons] at h ⊢
        simp only [List.cons_append, itemsAt_cons, hcount, ← Nat.add_assoc]
        unfold EndsBefore at hnewline
        generalize (nextPiece c rest).1 = piece, (nextPiece c rest).2 = after at *
        cases piece with
        | gap text =>
          obtain ⟨ts, hts, hitems, hjoin⟩ := ih _ hlength h rfl
          refine ⟨ts, hts, hitems, fun behind => ?_⟩
          rw [hnewline behind trivial]
          exact hjoin behind
        | lexeme kind text =>
          obtain ⟨ts, hts, hitems, hjoin⟩ := ih _ hlength h rfl
          refine ⟨⟨kind, String.ofList text, line + (Piece.lexeme kind text).newlines⟩ :: ts, ?_, ?_,
            fun behind => ?_⟩
          · rintro t (_ | ⟨_, ht⟩)
            · exact decide_eq_false hgoes
            · exact hts t ht
          · exact congrArg _ hitems
          · rw [hnewline behind trivial]
            exact congrArg _ (hjoin behind)
        | fault cause text => cases h

/-! ## Texts on later lines -/

/-- The token, so many lines later. -/
def Token.raise (k : Nat) (t : Token) : Token := { t with line := t.line + k }

/-- The item, so many lines later. -/
def Item.raise (k : Nat) : Item → Item
  | token t => token (t.raise k)
  | fault line cause => fault (line + k) cause

/-- **A text that starts on a later line brings up the same on later lines.** -/
theorem itemsAt_raise (k line : Nat) (text : List Char) :
    itemsAt (line + k) text = (itemsAt line text).map (Item.raise k) := by
  unfold itemsAt
  induction pieces text generalizing line with
  | nil => rfl
  | cons piece ps ih =>
    have hline : line + k + piece.newlines = line + piece.newlines + k := Nat.add_right_comm _ _ _
    have hrest := ih (line + piece.newlines)
    rw [← hline] at hrest
    cases piece with
    | gap text => exact hrest
    | lexeme kind text =>
      rw [itemsFrom, itemsFrom, hrest, List.map_cons, hline]
      rfl
    | fault cause text =>
      rw [itemsFrom, itemsFrom, hrest, List.map_cons, hline]
      rfl

/-- The tokens are raised with their items. -/
theorem tokensOf_raise (k : Nat) (found : List Item) :
    tokensOf (found.map (Item.raise k)) = (tokensOf found).map (Token.raise k) := by
  induction found with
  | nil => rfl
  | cons item found ih =>
    cases item with
    | token t => exact congrArg _ ih
    | fault line cause => exact ih

/-- So are the faults. -/
theorem faultsOf_raise (k : Nat) (found : List Item) :
    faultsOf (found.map (Item.raise k)) = (faultsOf found).map fun (line, cause) => (line + k, cause) := by
  induction found with
  | nil => rfl
  | cons item found ih =>
    cases item with
    | token t => exact ih
    | fault line cause => exact congrArg _ ih

end Lox
