import Lox.Proofs.Renaming.Respelling
import Lox.Proofs.Scanning.Tiling

/-!
  The lexical grammar, and the longest match.

  What a lexeme is, and what kind of token it makes, is said here of its characters alone (`IsLexeme`): a mark, a
  reserved word, a name that is not reserved, a numeral or a string literal.  The scanner is not mentioned.  It
  is then shown of the scanner that

  1. what it makes a token of is a lexeme of that kind (`nextPiece_legal`);
  2. wherever a token is read no longer lexeme begins there (`IsLexeme.le_nextPiece`), by one lemma for each way
     to read a piece: every reader takes at least as much as a lexeme of its sort, and the first character tells
     which reader it is;
  3. a lexeme that is set apart from what follows it is read as the token it makes (`nextPiece_lexeme`), and so a
     lexeme makes tokens of one kind only (`IsLexeme.kind_unique`).

  So the lexemes of any text, with one space between any two of them, are read as the same tokens again.
  `scanner_takes_longest` collects this for all sources, broken ones among them.
-/

namespace Lox

/-! ## Lexemes -/

/-- The inside of a string literal: every quote in it stands behind a backslash, which takes away the
    character behind it. -/
inductive Enclosed : List Char → Prop where
  | nil : Enclosed []
  | escape (c : Char) {rest : List Char} : Enclosed rest → Enclosed ('\\' :: c :: rest)
  | plain {c : Char} {rest : List Char} : c ≠ '"' → c ≠ '\\' → Enclosed rest → Enclosed (c :: rest)

/-- The characters are digits, and there are some. -/
def Digits (text : List Char) : Prop := text ≠ [] ∧ ∀ c ∈ text, c.isDigit = true

/-- The lexemes of the language, each with the kind of token that it makes. -/
inductive IsLexeme : TokenKind → List Char → Prop where
  | mark (m : Mark) : IsLexeme (.mark m) m.text.toList
  | keyword (k : Keyword) : IsLexeme (.keyword k) k.text.toList
  | identifier {text : List Char} : NameShape text → (∀ k : Keyword, k.text.toList ≠ text) →
    IsLexeme .identifier text
  | whole {digits : List Char} : Digits digits →
    IsLexeme (.number (Number.ofNumeral (digitsValue digits) 0)) digits
  | fraction {digits places : List Char} : Digits digits → Digits places →
    IsLexeme (.number (Number.ofNumeral (digitsValue (digits ++ places)) places.length))
      (digits ++ '.' :: places)
  | string {body : List Char} : Enclosed body →
    IsLexeme (.string (String.ofList (Text.Escaped.decode body))) ('"' :: body ++ ['"'])

/-- The lexeme is the longest one with which the text begins. -/
structure LongestLexeme (kind : TokenKind) (lexeme text : List Char) : Prop where
  legal : IsLexeme kind lexeme
  begins : lexeme <+: text
  longest : ∀ kind' lexeme', IsLexeme kind' lexeme' → lexeme' <+: text → lexeme'.length ≤ lexeme.length

/-- The words that are no names. -/
def reservedWords : List String :=
  ["and", "break", "class", "else", "false", "func", "for", "if", "nil", "or", "return", "super", "this",
    "true", "var", "while"]

/-! ## Strings, numerals and names -/

/-- The inside of a string literal ends at the quote behind it. -/
theorem Enclosed.split? {body : List Char} (h : Enclosed body) (after : List Char) :
    Text.Escaped.split? (body ++ '"' :: after) = some (body, after) := by
  induction h with
  | nil => rfl
  | escape c _ ih =>
    rw [List.cons_append, List.cons_append, Text.Escaped.split?.eq_3, ih]
    rfl
  | @plain c rest hquote hslash _ ih =>
    have hplain : ∀ d others, c = '\\' → rest ++ '"' :: after = d :: others → False :=
      fun _ _ hc _ => hslash hc
    rw [List.cons_append, Text.Escaped.split?.eq_4 _ _ hquote hplain, ih]
    rfl

/-- What ends at a quote is the inside of a string literal. -/
theorem enclosed_of_split? {text body after : List Char}
    (h : Text.Escaped.split? text = some (body, after)) : Enclosed body := by
  fun_induction Text.Escaped.split? text generalizing body after with
  | case1 => cases h
  | case2 rest =>
    cases h
    exact .nil
  | case3 c rest ih =>
    obtain ⟨⟨b, a⟩, hs, he⟩ := Option.map_eq_some_iff.1 h
    cases he
    exact .escape c (ih hs)
  | case4 c rest hquote hnot ih =>
    obtain ⟨⟨b, a⟩, hs, he⟩ := Option.map_eq_some_iff.1 h
    cases he
    refine .plain hquote (fun hslash => ?_) (ih hs)
    -- A backslash takes the next character with it, and there is one: at least the closing quote.
    rw [Text.Escaped.eq_of_split? hs] at hnot
    cases b with
    | nil => exact hnot _ _ hslash rfl
    | cons d b => exact hnot _ _ hslash rfl

/-- Decimal places are digits, and there are some. -/
theorem digits_of_splitFraction? {text places after : List Char}
    (h : splitFraction? text = some (places, after)) : Digits places := by
  unfold splitFraction? at h
  split at h
  · split at h
    · cases h
    · rename_i hsome
      cases h
      exact ⟨hsome, fun _ hc => List.mem_takeWhile_imp hc⟩
  · cases h

/-- Digits behind a point are decimal places, and there may be more of them. -/
theorem Digits.splitFraction? {places : List Char} (h : Digits places) (after : List Char) :
    splitFraction? ('.' :: places ++ after) =
      some (places ++ after.takeWhile Char.isDigit, after.dropWhile Char.isDigit) := by
  have htake : (places ++ after).takeWhile Char.isDigit = places ++ after.takeWhile Char.isDigit :=
    List.takeWhile_append_of_pos h.2
  have hdrop : (places ++ after).dropWhile Char.isDigit = after.dropWhile Char.isDigit :=
    List.dropWhile_append_of_pos h.2
  rw [List.cons_append, Lox.splitFraction?.eq_1, htake, hdrop, if_neg]
  exact List.append_ne_nil_of_left_ne_nil h.1 _

/-- A keyword is written like a name. -/
theorem Keyword.nameShape (k : Keyword) : NameShape k.text.toList := by
  cases k <;> exact ⟨_, _, rfl, rfl, List.all_eq_true.mp rfl⟩

/-- Only a keyword is spelled like it. -/
theorem Keyword.ofText?_eq_some {s : String} {k : Keyword} : Keyword.ofText? s = some k ↔ k.text = s := by
  constructor
  · intro h
    simpa using List.find?_some h
  · rintro rfl
    cases k <;> rfl

/-- A text that is no keyword is looked up in vain. -/
theorem Keyword.ofText?_eq_none {s : String} (h : ∀ k : Keyword, k.text ≠ s) : Keyword.ofText? s = none := by
  cases hk : Keyword.ofText? s with
  | none => rfl
  | some k => exact absurd (Keyword.ofText?_eq_some.mp hk) (h k)

/-- The reserved words are the texts of the keywords. -/
theorem Keyword.mem_reservedWords {s : String} : s ∈ reservedWords ↔ ∃ k : Keyword, k.text = s := by
  show s ∈ Keyword.all.map Keyword.text ↔ _
  simp only [List.mem_map, Keyword.mem_all, true_and]

/-- The kind of token that a name or a keyword makes. -/
theorem NameShape.isLexeme {text : List Char} (h : NameShape text) :
    IsLexeme ((Keyword.ofText? (String.ofList text)).elim .identifier .keyword) text := by
  cases hk : Keyword.ofText? (String.ofList text) with
  | none =>
    refine .identifier h fun k htext => ?_
    have hsome := Keyword.ofText?_eq_some.mpr (show k.text = String.ofList text by
      rw [← htext, String.ofList_toList])
    rw [hk] at hsome
    cases hsome
  | some k =>
    have htext := Keyword.ofText?_eq_some.mp hk
    have hlexeme := IsLexeme.keyword k
    rw [htext, String.toList_ofList] at hlexeme
    exact hlexeme

/-! ## What is read is a lexeme -/

variable {c : Char} {rest lexeme after : List Char} {kind : TokenKind}

/-- What a number makes a token of is a numeral. -/
theorem readNumber_legal (hc : c.isDigit = true) (h : (readNumber c rest).1 = .lexeme kind lexeme) :
    IsLexeme kind lexeme := by
  have hwhole : Digits (c :: rest.takeWhile Char.isDigit) :=
    ⟨List.cons_ne_nil _ _, List.forall_mem_cons.mpr ⟨hc, fun _ hd => List.mem_takeWhile_imp hd⟩⟩
  unfold readNumber at h
  dsimp only at h
  split at h
  · rename_i hplaces
    cases h
    exact .fraction hwhole (digits_of_splitFraction? hplaces)
  · cases h
    exact .whole hwhole

/-- What a mark makes a token of is the text of that mark. -/
theorem readMark_legal (h : (readMark c rest).1 = .lexeme kind lexeme) : IsLexeme kind lexeme := by
  unfold readMark at h
  split at h
  · rename_i m after hdouble
    cases h
    -- The mark has been found by its text.
    unfold splitDouble? at hdouble
    split at hdouble
    · obtain ⟨_, hfound, ⟨⟩⟩ := Option.map_eq_some_iff.mp hdouble
      have htext : m.text.toList = [c, '='] := by simpa using List.find?_some hfound
      exact htext ▸ .mark m
    · cases hdouble
  · split at h
    · rename_i m hsingle
      cases h
      have htext : m.text.toList = [c] := by simpa using List.find?_some hsingle
      exact htext ▸ .mark m
    · cases h

/-- **What is read as a token is a lexeme of its kind.** -/
theorem nextPiece_legal (h : (nextPiece c rest).1 = .lexeme kind lexeme) : IsLexeme kind lexeme := by
  -- A blank makes no token; every other way to begin has a reader of its own.
  unfold nextPiece at h
  split at h
  · cases h
  · split at h
    · unfold readString at h
      split at h
      · rename_i hsplit
        cases h
        exact .string (enclosed_of_split? hsplit)
      · cases h
    · split at h
      · rename_i hdigit
        exact readNumber_legal hdigit h
      · split at h
        · rename_i hname
          cases h
          exact NameShape.isLexeme ⟨c, _, rfl, hname, fun _ hd => List.mem_takeWhile_imp hd⟩
        · split at h
          · cases h
          · unfold readBlockComment at h
            split at h <;> cases h
          · exact readMark_legal h

/-! ## What is read is as long as any lexeme

  By the first character: it decides what kinds of lexemes there can be, and the reader takes all it can. -/

/-- A digit begins a number. -/
theorem nextPiece_of_digit (hc : c.isDigit = true) (rest : List Char) : nextPiece c rest = readNumber c rest := by
  have hblank : isBlank c = false := by
    refine Bool.eq_false_iff.mpr fun hblank => ?_
    have hmem := isBlank_iff.mp hblank
    simp only [List.mem_cons, List.not_mem_nil, or_false] at hmem
    rcases hmem with rfl | rfl | rfl | rfl <;> exact absurd hc (by decide)
  have hquote : c ≠ '"' := by
    rintro rfl
    exact absurd hc (by decide)
  unfold nextPiece
  rw [if_neg (by simp [hblank]), if_neg hquote, if_pos hc]

/-- A quote begins a string. -/
theorem nextPiece_quote (rest : List Char) : nextPiece '"' rest = readString rest := rfl

/-- A numeral goes on as long as there are digits. -/
theorem whole_le_readNumber {digits : List Char} (hd : Digits digits) (h : digits <+: c :: rest) :
    digits.length ≤ (readNumber c rest).1.text.length := by
  obtain ⟨after, hafter⟩ := h
  obtain ⟨d, more, rfl⟩ := List.exists_cons_of_ne_nil hd.1
  rw [List.cons_append] at hafter
  obtain ⟨rfl, rfl⟩ := List.cons_eq_cons.mp hafter
  have hmore : (more ++ after).takeWhile Char.isDigit = more ++ after.takeWhile Char.isDigit :=
    List.takeWhile_append_of_pos fun e he => hd.2 e (List.mem_cons_of_mem d he)
  unfold readNumber
  dsimp only
  rw [hmore]
  split <;> simp only [Piece.text, List.length_cons, List.length_append] <;> omega

/-- A numeral goes on behind a point if there are digits. -/
theorem fraction_le_readNumber {digits places : List Char} (hd : Digits digits) (hp : Digits places)
    (h : digits ++ '.' :: places <+: c :: rest) :
    (digits ++ '.' :: places).length ≤ (readNumber c rest).1.text.length := by
  obtain ⟨after, hafter⟩ := h
  obtain ⟨d, more, rfl⟩ := List.exists_cons_of_ne_nil hd.1
  rw [List.append_assoc, List.cons_append] at hafter
  obtain ⟨rfl, rfl⟩ := List.cons_eq_cons.mp hafter
  have hpoint : StopsAt Char.isDigit ('.' :: places ++ after) := by
    rintro _ ⟨⟩
    rfl
  obtain ⟨htake, hdrop⟩ := span_stop (fun e he => hd.2 e (List.mem_cons_of_mem d he)) hpoint
  unfold readNumber
  rw [htake, hdrop, hp.splitFraction?]
  simp only [Piece.text, List.length_cons, List.length_append]
  omega

/-- A name goes on as long as there are characters for it. -/
theorem name_le_readName {name : List Char} (hn : NameShape name) (h : name <+: c :: rest) :
    name.length ≤ (readName c rest).1.text.length := by
  obtain ⟨after, hafter⟩ := h
  obtain ⟨d, more, rfl, -, hmore⟩ := hn
  rw [List.cons_append] at hafter
  obtain ⟨rfl, rfl⟩ := List.cons_eq_cons.mp hafter
  have htake : (more ++ after).takeWhile isNamePart = more ++ after.takeWhile isNamePart :=
    List.takeWhile_append_of_pos hmore
  simp only [readName, htake, Piece.text, List.length_cons, List.length_append]
  omega

/-- A mark of two characters is not taken for one of a single character. -/
theorem mark_le_nextPiece {m : Mark} (h : m.text.toList <+: c :: rest) :
    m.text.toList.length ≤ (nextPiece c rest).1.text.length := by
  have hpos := List.length_pos_iff.mpr (nextPiece_text_ne_nil c rest)
  obtain ⟨after, hafter⟩ := h
  cases m with
  | bangEqual | equalEqual | greaterEqual | lessEqual =>
    obtain ⟨rfl, rfl⟩ := List.cons_eq_cons.mp hafter
    exact Nat.le_refl _
  | _ => exact hpos

/-- **No lexeme with which a text begins is longer than its first piece.** -/
theorem IsLexeme.le_nextPiece (h : IsLexeme kind lexeme) (hbegins : lexeme <+: c :: rest) :
    lexeme.length ≤ (nextPiece c rest).1.text.length := by
  -- The first character of the lexeme is the one at which the scanner decides how to go on.
  have hhead : ∀ {d more}, lexeme = d :: more → d = c := by
    rintro d more rfl
    exact (List.cons_prefix_cons.mp hbegins).1
  cases h with
  | mark m => exact mark_le_nextPiece hbegins
  | keyword k =>
    obtain ⟨d, more, hshape, hd, -⟩ := k.nameShape
    rw [nextPiece_of_start (hhead hshape ▸ hd)]
    exact name_le_readName k.nameShape hbegins
  | identifier hname _ =>
    obtain ⟨d, more, hshape, hd, -⟩ := id hname
    rw [nextPiece_of_start (hhead hshape ▸ hd)]
    exact name_le_readName hname hbegins
  | whole hdigits =>
    obtain ⟨d, more, rfl⟩ := List.exists_cons_of_ne_nil hdigits.1
    rw [nextPiece_of_digit (hhead rfl ▸ hdigits.2 d List.mem_cons_self)]
    exact whole_le_readNumber hdigits hbegins
  | fraction hdigits hplaces =>
    obtain ⟨d, more, rfl⟩ := List.exists_cons_of_ne_nil hdigits.1
    rw [nextPiece_of_digit (hhead rfl ▸ hdigits.2 d List.mem_cons_self)]
    exact fraction_le_readNumber hdigits hplaces hbegins
  | @string body hbody =>
    obtain ⟨after, hafter⟩ := hbegins
    rw [List.append_assoc, List.cons_append] at hafter
    obtain ⟨rfl, rfl⟩ := List.cons_eq_cons.mp hafter
    rw [nextPiece_quote, readString, List.singleton_append, hbody.split?]
    exact Nat.le_refl _

/-- **A token is the longest lexeme with which the text begins.** -/
theorem nextPiece_longest (h : (nextPiece c rest).1 = .lexeme kind lexeme) :
    LongestLexeme kind lexeme (c :: rest) := by
  have htext : (nextPiece c rest).1.text = lexeme := congrArg Piece.text h
  refine ⟨nextPiece_legal h, ⟨(nextPiece c rest).2, ?_⟩, fun _ _ hlexeme hbegins => ?_⟩
  · rw [← htext, nextPiece_append]
  · rw [← htext]
    exact hlexeme.le_nextPiece hbegins

/-! ## A lexeme is read as its token

  Provided it is set apart from what follows, since otherwise the reader might take more. -/

/-- Nothing follows, or else a space. -/
def SetApart (after : List Char) : Prop := ∀ c ∈ after.head?, c = ' '

/-- What follows begins with a space, or is nothing. -/
theorem SetApart.stopsAt (h : SetApart after) {f : Char → Bool} (hf : f ' ' = false) : StopsAt f after :=
  fun c hc => h c hc ▸ hf

/-- It does not begin with any other character. -/
theorem SetApart.head_ne (h : SetApart after) {d : Char} (hd : d ≠ ' ') : after.head? ≠ some d :=
  fun hhead => hd (h d hhead)

/-- A name that is set apart is read to its end. -/
theorem readName_shaped {more : List Char} (hmore : ∀ d ∈ more, isNamePart d = true)
    (ha : SetApart after) : readName c (more ++ after) =
      (.lexeme ((Keyword.ofText? (String.ofList (c :: more))).elim .identifier .keyword) (c :: more), after) := by
  obtain ⟨htake, hdrop⟩ := span_stop hmore (ha.stopsAt (f := isNamePart) rfl)
  rw [readName, htake, hdrop]

/-- A numeral without a fraction is read to its end. -/
theorem readNumber_whole {more : List Char} (hmore : ∀ d ∈ more, d.isDigit = true) (ha : SetApart after) :
    readNumber c (more ++ after) =
      (.lexeme (.number (Number.ofNumeral (digitsValue (c :: more)) 0)) (c :: more), after) := by
  obtain ⟨htake, hdrop⟩ := span_stop hmore (ha.stopsAt (f := Char.isDigit) rfl)
  unfold readNumber
  rw [htake, hdrop, splitFraction?_of_head (ha.head_ne (by decide))]

/-- A numeral with a fraction is read to its end. -/
theorem readNumber_fraction {more places : List Char} (hmore : ∀ d ∈ more, d.isDigit = true)
    (hp : Digits places) (ha : SetApart after) :
    readNumber c (more ++ '.' :: places ++ after) =
      (.lexeme (.number (Number.ofNumeral (digitsValue (c :: more ++ places)) places.length))
        (c :: more ++ '.' :: places), after) := by
  have hpoint : StopsAt Char.isDigit ('.' :: places ++ after) := by
    rintro _ ⟨⟩
    rfl
  obtain ⟨htake, hdrop⟩ := span_stop hmore hpoint
  obtain ⟨hnone, hall⟩ := @span_stop _ [] _ nofun (ha.stopsAt (f := Char.isDigit) rfl)
  rw [List.nil_append] at hnone hall
  unfold readNumber
  rw [List.append_assoc, htake, hdrop, hp.splitFraction?, hnone, hall, List.append_nil]

/-- A mark that is set apart is read to its end: the mark that begins with it is not taken for it. -/
theorem nextPiece_of_mark (m : Mark) (h : m.text.toList = c :: rest) (ha : SetApart after) :
    nextPiece c (rest ++ after) = (.lexeme (.mark m) (c :: rest), after) := by
  cases after with
  | nil => cases m <;> cases h <;> rfl
  | cons d after =>
    cases ha d rfl
    cases m <;> cases h <;> rfl

/-- **A lexeme that is set apart from what follows it is read as the token that it makes.** -/
theorem nextPiece_lexeme (h : IsLexeme kind (c :: rest)) (ha : SetApart after) :
    nextPiece c (rest ++ after) = (.lexeme kind (c :: rest), after) := by
  -- Sort by sort: the first character leads to the reader, and the reader stops where the lexeme ends.
  generalize hlexeme : c :: rest = lexeme at h
  cases h with
  | mark m =>
    rw [nextPiece_of_mark m hlexeme.symm ha, hlexeme]
  | keyword k =>
    obtain ⟨d, more, hshape, hd, hmore⟩ := k.nameShape
    obtain ⟨rfl, rfl⟩ := List.cons_eq_cons.mp (hlexeme.trans hshape)
    rw [nextPiece_of_start hd, readName_shaped hmore ha, hlexeme, String.ofList_toList,
      Keyword.ofText?_eq_some.mpr rfl]
    rfl
  | identifier hname hfree =>
    obtain ⟨d, more, hshape, hd, hmore⟩ := hname
    obtain ⟨rfl, rfl⟩ := List.cons_eq_cons.mp (hlexeme.trans hshape)
    have hnone : Keyword.ofText? (String.ofList (c :: rest)) = none :=
      Keyword.ofText?_eq_none fun k hk => hfree k (by rw [hk, hlexeme, String.toList_ofList])
    rw [nextPiece_of_start hd, readName_shaped hmore ha, hnone, hlexeme]
    rfl
  | whole hdigits =>
    subst hlexeme
    rw [nextPiece_of_digit (hdigits.2 c List.mem_cons_self),
      readNumber_whole (fun d hd => hdigits.2 d (List.mem_cons_of_mem c hd)) ha]
  | @fraction digits places hdigits hplaces =>
    obtain ⟨d, more, rfl⟩ := List.exists_cons_of_ne_nil hdigits.1
    rw [List.cons_append] at hlexeme
    obtain ⟨rfl, rfl⟩ := List.cons_eq_cons.mp hlexeme
    rw [nextPiece_of_digit (hdigits.2 c List.mem_cons_self),
      readNumber_fraction (fun d hd => hdigits.2 d (List.mem_cons_of_mem c hd)) hplaces ha]
  | @string body hbody =>
    rw [List.cons_append] at hlexeme
    obtain ⟨rfl, rfl⟩ := List.cons_eq_cons.mp hlexeme
    rw [nextPiece_quote, readString, List.append_assoc, List.singleton_append, hbody.split?]

/-- No lexeme is empty. -/
theorem IsLexeme.ne_nil (h : IsLexeme kind lexeme) : lexeme ≠ [] := by
  cases h with
  | mark m => cases m <;> exact List.cons_ne_nil _ _
  | keyword k => cases k <;> exact List.cons_ne_nil _ _
  | identifier hname _ =>
    obtain ⟨c, more, rfl, -⟩ := hname
    exact List.cons_ne_nil _ _
  | whole hdigits => exact hdigits.1
  | fraction hdigits _ => exact List.append_ne_nil_of_left_ne_nil hdigits.1 _
  | string _ => exact List.cons_ne_nil _ _

/-- **A lexeme makes tokens of one kind only.** -/
theorem IsLexeme.kind_unique {kind' : TokenKind} (h : IsLexeme kind lexeme) (h' : IsLexeme kind' lexeme) :
    kind = kind' := by
  obtain ⟨c, rest, rfl⟩ := List.exists_cons_of_ne_nil h.ne_nil
  have hread : nextPiece c (rest ++ []) = (.lexeme kind (c :: rest), []) := nextPiece_lexeme h nofun
  have hread' : nextPiece c (rest ++ []) = (.lexeme kind' (c :: rest), []) := nextPiece_lexeme h' nofun
  injection hread.symm.trans hread' with hpiece
  injection hpiece

/-! ## The tokens of a text -/

/-- Where a token stands, the first piece of what is left of the text is its lexeme. -/
theorem piece_of_placed {t : Token} {span : Span} (hend : t.isEof = false) {done text : List Char} {line : Nat}
    (h : (Item.token t, span) ∈ placedFrom (String.utf8Len done) line (pieces text)) :
    ∃ before c rest, done ++ text = before ++ c :: rest ∧ span.start = String.utf8Len before ∧
      (nextPiece c rest).1 = .lexeme t.kind t.lexeme.toList := by
  -- By the length of the text: the item is that of the first piece, or one of a later piece.
  induction hn : text.length using Nat.strong_induction_on generalizing done text line with
  | h n ih =>
    cases text with
    | nil =>
      cases List.mem_singleton.mp h
      cases hend
    | cons c rest =>
      have hlength := length_behind_nextPiece c rest
      have hwhole : done ++ c :: rest = done ++ (nextPiece c rest).1.text ++ (nextPiece c rest).2 := by
        rw [List.append_assoc, nextPiece_append]
      have hlater : ∀ {line'}, (Item.token t, span) ∈ placedFrom
            (String.utf8Len done + String.utf8Len (nextPiece c rest).1.text) line'
            (pieces (nextPiece c rest).2) →
          ∃ before d more, done ++ c :: rest = before ++ d :: more ∧ span.start = String.utf8Len before ∧
            (nextPiece d more).1 = .lexeme t.kind t.lexeme.toList := by
        intro line' hmem
        rw [← String.utf8Len_append] at hmem
        have hrest := ih _ (by rw [← hn, List.length_cons]; omega) hmem rfl
        rwa [← hwhole] at hrest
      rw [pieces_cons] at h
      cases hpiece : (nextPiece c rest).1 with
      | gap text =>
        rw [hpiece] at h hlater
        exact hlater h
      | fault cause text =>
        rw [hpiece] at h hlater
        rcases List.mem_cons.mp h with hhere | h
        · cases hhere
        · exact hlater h
      | lexeme kind text =>
        rw [hpiece] at h hlater
        rcases List.mem_cons.mp h with hhere | h
        · cases hhere
          exact ⟨done, c, rest, rfl, rfl, by rw [hpiece, String.toList_ofList]⟩
        · exact hlater h

/-- **Every token is the longest lexeme with which the text goes on where it stands.** -/
theorem placed_longest {source : String} {t : Token} {span : Span} (hend : t.isEof = false)
    (h : (Item.token t, span) ∈ placed source) :
    LongestLexeme t.kind t.lexeme.toList (stretch source span.start source.utf8ByteSize) := by
  obtain ⟨before, c, rest, hwhole, hstart, hpiece⟩ := @piece_of_placed t span hend [] source.toList 1 h
  rw [hstart, stretch_end hwhole]
  exact nextPiece_longest hpiece

/-! ## Lexemes with spaces between them -/

/-- What a token is read as, wherever it stands. -/
def Token.reading (t : Token) : TokenKind × String := (t.kind, t.lexeme)

/-- A lexeme brings up its token, and then what follows. -/
theorem itemsAt_lexeme (h : IsLexeme kind lexeme) (ha : SetApart after) (line : Nat) :
    itemsAt line (lexeme ++ after) = .token ⟨kind, String.ofList lexeme, line + lexeme.count '\n'⟩ ::
      itemsAt (line + lexeme.count '\n') after := by
  obtain ⟨c, rest, rfl⟩ := List.exists_cons_of_ne_nil h.ne_nil
  rw [itemsAt, List.cons_append, pieces_cons, nextPiece_lexeme h ha]
  rfl

/-- The lexemes of tokens, with one space between any two of them. -/
def spaced (ts : List Token) : String := " ".intercalate (ts.map Token.lexeme)

/-- Behind the first lexeme there is nothing, or else a space and then the others. -/
theorem spaced_cons (t : Token) (ts : List Token) :
    ∃ after, (spaced (t :: ts)).toList = t.lexeme.toList ++ after ∧ SetApart after ∧
      ∀ line, itemsAt line after = itemsAt line (spaced ts).toList := by
  cases ts with
  | nil => exact ⟨[], (List.append_nil _).symm, nofun, fun _ => rfl⟩
  | cons u ts =>
    refine ⟨' ' :: (spaced (u :: ts)).toList, ?_, fun c hc => (Option.some.inj hc).symm, fun line => ?_⟩
    · rw [spaced, List.map_cons, List.map_cons, String.intercalate_cons_cons, String.toList_append,
        String.toList_append, List.append_assoc]
      rfl
    · exact itemsAt_blank rfl line _

/-- **Lexemes with one space between any two of them are read as the tokens that they make**, and
    without a fault. -/
theorem itemsAt_spaced {ts : List Token} (hts : ∀ t ∈ ts, IsLexeme t.kind t.lexeme.toList) (line : Nat) :
    faultsOf (itemsAt line (spaced ts).toList) = [] ∧
      (tokensOf (itemsAt line (spaced ts).toList)).map Token.reading = ts.map Token.reading ++ [(.eof, "")] := by
  induction ts generalizing line with
  | nil => exact ⟨rfl, rfl⟩
  | cons t ts ih =>
    obtain ⟨ht, hts⟩ := List.forall_mem_cons.mp hts
    obtain ⟨after, hspaced, hapart, hrest⟩ := spaced_cons t ts
    obtain ⟨hfaults, htokens⟩ := ih hts (line + t.lexeme.toList.count '\n')
    rw [hspaced, itemsAt_lexeme ht hapart, String.ofList_toList, hrest]
    exact ⟨hfaults, congrArg (t.reading :: ·) htokens⟩

/-! ## Sources -/

/-- The tokens of a source but for the end of the program. -/
def lexemesOf (source : String) : List Token := (tokensOf (items source)).filter (!·.isEof)

/-- The end of the program is the last token. -/
theorem tokensOf_items (source : String) :
    ∃ line, tokensOf (items source) = lexemesOf source ++ [.finish line] := by
  obtain ⟨before, hplaced, hbefore⟩ := (Tiled.of_cut (pieces_cut source.toList) []).ends
  have hitems : items source = before.map Prod.fst ++ [.token (.finish (lineBehind source.toList))] := by
    rw [items, ← placedFrom_items 0 1]
    exact (congrArg (List.map Prod.fst) hplaced).trans List.map_append
  -- Nothing before the end of the file is an end of the file.
  have hkept : ∀ t ∈ tokensOf (before.map Prod.fst), (!t.isEof) = true := by
    intro t ht
    obtain ⟨item, hmem, hitem⟩ := List.mem_filterMap.mp ht
    obtain ⟨⟨found, span⟩, hp, rfl⟩ := List.mem_map.mp hmem
    have hend := hbefore _ hp
    cases found with
    | token u =>
      cases hitem
      exact Bool.not_eq_true' _ ▸ hend
    | fault line cause => cases hitem
  have htokens : tokensOf (items source) =
      tokensOf (before.map Prod.fst) ++ [.finish (lineBehind source.toList)] := by
    rw [hitems, tokensOf, tokensOf, List.filterMap_append]
    rfl
  refine ⟨lineBehind source.toList, ?_⟩
  rw [lexemesOf, htokens, List.filter_append, List.filter_eq_self.mpr hkept]
  exact congrArg (· ++ _) (List.append_nil _).symm

/-- Every token but the end of the program is a lexeme. -/
theorem lexemesOf_legal {source : String} : ∀ t ∈ lexemesOf source, IsLexeme t.kind t.lexeme.toList := by
  intro t ht
  obtain ⟨hmem, hend⟩ := List.mem_filter.mp ht
  rw [Bool.not_eq_true'] at hend
  obtain ⟨item, hitem, htoken⟩ := List.mem_filterMap.mp hmem
  rw [items, ← placedFrom_items 0 1] at hitem
  obtain ⟨⟨found, span⟩, hplaced, rfl⟩ := List.mem_map.mp hitem
  cases found with
  | fault line cause => cases htoken
  | token u =>
    cases htoken
    exact (placed_longest hend hplaced).legal

/-- How the tokens of a source are taken from it, and how they can be given back. -/
structure TakesLongest (source : String) : Prop where
  /-- Every token but the end of the program is the longest lexeme with which the text goes on. -/
  longest : ∀ t span, (.token t, span) ∈ placed source → t.isEof = false →
    LongestLexeme t.kind t.lexeme.toList (stretch source span.start source.utf8ByteSize)
  /-- What has the characters of a name is a keyword if all of it is a reserved word, and else a name. -/
  reserved : ∀ t ∈ lexemesOf source, NameShape t.lexeme.toList →
    ((∃ k, t.kind = .keyword k) ↔ t.lexeme ∈ reservedWords) ∧
      (t.kind = .identifier ↔ t.lexeme ∉ reservedWords)
  /-- With one space between any two of them the lexemes are read without a fault … -/
  faultless : faultsOf (items (spaced (lexemesOf source))) = []
  /-- … and as the same tokens in the same order. -/
  again : (tokensOf (items (spaced (lexemesOf source)))).map Token.reading =
    (tokensOf (items source)).map Token.reading

/-- **Longest match, and the normal form of a text.**  Of any source, also one with faults, every token
    is the longest lexeme with which the text goes on there; a name is a keyword exactly if the whole of
    it is one of the sixteen reserved words; and if the lexemes of all tokens are put together with
    single spaces and read again they are the same tokens, and there is no fault. -/
theorem scanner_takes_longest (source : String) : TakesLongest source := by
  obtain ⟨hfaults, htokens⟩ := itemsAt_spaced (@lexemesOf_legal source) 1
  constructor
  case longest => exact fun _ _ hplaced hend => placed_longest hend hplaced
  -- A token with the shape of a name is a keyword or a name, as its text is reserved or not.
  case reserved =>
    intro t ht hshape
    have hkind := (lexemesOf_legal t ht).kind_unique hshape.isLexeme
    rw [String.ofList_toList] at hkind
    rw [Keyword.mem_reservedWords, hkind]
    cases hk : Keyword.ofText? t.lexeme with
    | none =>
      have hfree : ¬ ∃ k : Keyword, k.text = t.lexeme := by
        rintro ⟨k, hspelled⟩
        rw [Keyword.ofText?_eq_some.mpr hspelled] at hk
        cases hk
      exact ⟨⟨nofun, fun h => absurd h hfree⟩, iff_of_true rfl hfree⟩
    | some k =>
      have hspelled : ∃ k : Keyword, k.text = t.lexeme := ⟨k, Keyword.ofText?_eq_some.mp hk⟩
      exact ⟨iff_of_true ⟨k, rfl⟩ hspelled, ⟨nofun, fun h => absurd hspelled h⟩⟩
  case faultless => exact hfaults
  case again =>
    obtain ⟨line, hline⟩ := tokensOf_items source
    rw [hline, List.map_append]
    exact htokens

end Lox
