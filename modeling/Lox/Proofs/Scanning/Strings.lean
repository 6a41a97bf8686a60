import Mathlib
import Lox.Proofs.Scanning.Lexemes
import Lox.Proofs.Text.Utf8

/-!
  String literals, in characters and in bytes.

  What the text between two quotes stands for is said here of its characters (`Decodes`): an escape that is known
  stands for its character, a backslash before any other character stays, and so does every plain character.
  How a string is written there is said likewise (`Writes`), with a choice where there is one.

  * What is written stands for the string again (`Writes.decodes`), and is read as one token with it.
  * The scanner decodes as the relation says (`decodes_iff`), so that what it reads is what is written.
  * A literal can as well be read byte by byte (`readBytes`), without a look at where a character begins.  That
    gives the bytes of the same string (`readBytes_bytes`): only bytes below 0x80 are ever changed or left out,
    and these are characters of their own.  So the bytes are those of a text, and nothing in them has to be
    replaced by the replacement character (`string_literals_lossless`).
-/

namespace Lox

open Text.Escaped
open Text hiding decode encode

/-! ## What is written, and what it stands for

  Two relations that do not mention the reader: how a string may be written, and what a body stands for. -/

/-- The five characters that stand for another one behind a backslash. -/
inductive Escape : Char → Char → Prop where
  | quote : Escape '"' '"'
  | backslash : Escape '\\' '\\'
  | newline : Escape 'n' '\n'
  | tab : Escape 't' '\t'
  | carriageReturn : Escape 'r' '\r'

/-- The text between the quotes, and the characters that it stands for: the five escapes are replaced,
    and any other backslash is kept together with the character behind it. -/
inductive Decodes : List Char → List Char → Prop where
  | nil : Decodes [] []
  | escape {c d : Char} {body text : List Char} : Escape c d → Decodes body text →
    Decodes ('\\' :: c :: body) (d :: text)
  | kept {c : Char} {body text : List Char} : (∀ d, ¬ Escape c d) → Decodes body text →
    Decodes ('\\' :: c :: body) ('\\' :: c :: text)
  | plain {c : Char} {body text : List Char} : c ≠ '"' → c ≠ '\\' → Decodes body text →
    Decodes (c :: body) (c :: text)

/-- Characters, and the ways to write them between quotes: a backslash and a quote behind a backslash, a
    newline, a tab and a carriage return as such or by their escapes, and all others as such. -/
inductive Writes : List Char → List Char → Prop where
  | nil : Writes [] []
  | escape {c d : Char} {text body : List Char} : Escape c d → Writes text body →
    Writes (d :: text) ('\\' :: c :: body)
  | plain {c : Char} {text body : List Char} : c ≠ '"' → c ≠ '\\' → Writes text body →
    Writes (c :: text) (c :: body)

/-- A text between two quotes. -/
def quoted (body : List Char) : String := String.ofList ('"' :: body ++ ['"'])

/-- The table of escapes is the relation. -/
theorem escape?_eq_some {c d : Char} : escape? c = some d ↔ Escape c d := by
  constructor
  · intro h
    unfold escape? at h
    -- The five escapes, one after the other.
    split at h
    · subst_vars
      cases h
      exact .quote
    split at h
    · subst_vars
      cases h
      exact .backslash
    split at h
    · subst_vars
      cases h
      exact .newline
    split at h
    · subst_vars
      cases h
      exact .tab
    split at h
    · subst_vars
      cases h
      exact .carriageReturn
    · cases h
  · intro h
    cases h <;> rfl

/-- Where the table has nothing the character is no escape. -/
theorem escape?_eq_none {c : Char} : escape? c = none ↔ ∀ d, ¬ Escape c d := by
  rw [Option.eq_none_iff_forall_ne_some]
  simp only [ne_eq, escape?_eq_some]

/-- A plain character stands for itself. -/
theorem decode_plain {c : Char} (h : c ≠ '\\') (rest : List Char) :
    decode (c :: rest) = c :: decode rest :=
  decode.eq_3 c rest fun _ _ hc _ => h hc

/-- **Decoding in words**: what is decoded is the inside of a literal, and what it stands for. -/
theorem decodes_iff {body text : List Char} : Decodes body text ↔ Enclosed body ∧ decode body = text := by
  constructor
  · intro h
    -- By the relation: each of its rules is one step of decoding.
    induction h with
    | nil => exact ⟨.nil, rfl⟩
    | escape hescape _ ih =>
      refine ⟨.escape _ ih.1, ?_⟩
      rw [decode, escape?_eq_some.mpr hescape, ← ih.2]
    | kept hnone _ ih =>
      refine ⟨.escape _ ih.1, ?_⟩
      rw [decode, escape?_eq_none.mpr hnone, ← ih.2]
    | plain hquote hslash _ ih =>
      refine ⟨.plain hquote hslash ih.1, ?_⟩
      rw [decode_plain hslash, ih.2]
  · rintro ⟨henclosed, rfl⟩
    induction henclosed with
    | nil => exact .nil
    | escape c _ ih =>
      rw [decode]
      cases hescape : escape? c with
      | some d => exact .escape (escape?_eq_some.mp hescape) ih
      | none => exact .kept (escape?_eq_none.mp hescape) ih
    | plain hquote hslash _ ih =>
      rw [decode_plain hslash]
      exact .plain hquote hslash ih

/-- What is written for a string stands for it. -/
theorem Writes.decodes {text body : List Char} (h : Writes text body) : Decodes body text := by
  induction h with
  | nil => exact .nil
  | escape hescape _ ih => exact .escape hescape ih
  | plain hquote hslash _ ih => exact .plain hquote hslash ih

/-- Every string can be written. -/
theorem writes_encode (text : List Char) : Writes text (encode text) := by
  induction text with
  | nil => exact .nil
  | cons c text ih =>
    rw [encode]
    split
    · rename_i hspecial
      rcases hspecial with rfl | rfl
      · exact .escape .quote ih
      · exact .escape .backslash ih
    · rename_i hplain
      rw [not_or] at hplain
      exact .plain hplain.1 hplain.2 ih

/-- Decoding neither makes a character of another kind nor loses one. -/
theorem Decodes.count {body text : List Char} (h : Decodes body text) {c : Char}
    (hescape : ∀ d, ¬ Escape d c) (hbehind : ∀ d, ¬ Escape c d) : text.count c = body.count c := by
  have hslash : '\\' ≠ c := fun hc => hescape '\\' (hc ▸ .backslash)
  have hskip : ∀ {d : Char} (others : List Char), d ≠ c → (d :: others).count c = others.count c :=
    fun _ hd => List.count_cons_of_ne hd
  induction h with
  | nil => rfl
  | @escape d e _ _ hde _ ih =>
    rw [hskip _ hslash, hskip _ fun hd => hbehind e (hd ▸ hde), hskip _ fun he => hescape d (he ▸ hde), ih]
  | kept _ _ ih => rw [hskip _ hslash, hskip _ hslash, List.count_cons, List.count_cons, ih]
  | plain _ _ _ ih => rw [List.count_cons, List.count_cons, ih]

/-! ## Byte by byte

  The same over bytes.  All bytes that mean anything in a body are characters of their own. -/

/-- The byte that a backslash and a byte stand for, if they form an escape. -/
def escapeByte? (b : UInt8) : Option UInt8 :=
  if b = 0x22 then some 0x22
  else if b = 0x5c then some 0x5c
  else if b = 0x6e then some 0x0a
  else if b = 0x74 then some 0x09
  else if b = 0x72 then some 0x0d
  else none

/-- Reads the bytes behind an opening quote up to the closing one: what they stand for and what comes
    behind, if there is a closing quote. -/
def readBytes : List UInt8 → Option (List UInt8 × List UInt8)
  | [] => none
  | b :: rest =>
    if b = 0x22 then some ([], rest)
    else if b = 0x5c then
      match rest with
      | [] => none
      | e :: rest =>
        (readBytes rest).map fun (value, after) => ((escapeByte? e).elim [b, e] ([·]) ++ value, after)
    else (readBytes rest).map fun (value, after) => (b :: value, after)

/-- A byte that is neither a quote nor a backslash is kept. -/
theorem readBytes_plain {plain : List UInt8} (h : ∀ b ∈ plain, b ≠ 0x22 ∧ b ≠ 0x5c) (rest : List UInt8) :
    readBytes (plain ++ rest) = (readBytes rest).map fun p => (plain ++ p.1, p.2) := by
  induction plain with
  | nil => exact (congrFun Option.map_id _).symm
  | cons b others ih =>
    obtain ⟨⟨hquote, hslash⟩, hothers⟩ := List.forall_mem_cons.mp h
    rw [List.cons_append, readBytes.eq_def]
    simp only [if_neg hquote, if_neg hslash, ih hothers, Option.map_map]
    rfl

/-- Characters below 0x80 are told apart by their bytes. -/
theorem byte_eq_iff {c d : Char} (hc : c.toNat < 0x80) (hd : d.toNat < 0x80) :
    UInt8.ofNat c.toNat = UInt8.ofNat d.toNat ↔ c = d := by
  constructor
  · intro h
    have hnat := congrArg UInt8.toNat h
    rw [UInt8.toNat_ofNat', UInt8.toNat_ofNat'] at hnat
    exact Char.toNat_inj.mp (by omega)
  · rintro rfl
    rfl

/-- An escape is one for bytes as for characters. -/
theorem escapeByte?_low {c : Char} (h : c.toNat < 0x80) :
    escapeByte? (UInt8.ofNat c.toNat) = (escape? c).map fun d => UInt8.ofNat d.toNat := by
  have hbyte : ∀ d : Char, d.toNat < 0x80 → (UInt8.ofNat c.toNat = UInt8.ofNat d.toNat ↔ c = d) :=
    fun d hd => byte_eq_iff h hd
  unfold escapeByte? escape?
  rw [show (0x22 : UInt8) = UInt8.ofNat '"'.toNat from rfl,
    show (0x5c : UInt8) = UInt8.ofNat '\\'.toNat from rfl,
    show (0x6e : UInt8) = UInt8.ofNat 'n'.toNat from rfl, show (0x74 : UInt8) = UInt8.ofNat 't'.toNat from rfl,
    show (0x72 : UInt8) = UInt8.ofNat 'r'.toNat from rfl]
  simp only [hbyte '"' (by decide), hbyte '\\' (by decide), hbyte 'n' (by decide), hbyte 't' (by decide),
    hbyte 'r' (by decide)]
  repeat' split
  all_goals rfl

/-- The bytes of a character other than a quote or a backslash are neither of the two. -/
theorem bytes_plain {c : Char} (hquote : c ≠ '"') (hslash : c ≠ '\\') :
    ∀ b ∈ String.utf8EncodeChar c, b ≠ 0x22 ∧ b ≠ 0x5c := by
  rcases Nat.lt_or_ge c.toNat 0x80 with hlow | hhigh
  · rw [Utf8.bytes_low hlow]
    intro b hb
    cases List.mem_singleton.mp hb
    exact ⟨fun h => hquote ((byte_eq_iff hlow (by decide)).mp h),
      fun h => hslash ((byte_eq_iff hlow (by decide)).mp h)⟩
  · intro b hb
    have hb := Utf8.byte_high hhigh b hb
    constructor <;>
    · rintro rfl
      exact absurd hb (by decide)

/-- Behind a backslash the bytes of a character make an escape or are kept, as the character does. -/
theorem readBytes_escape (c : Char) (rest : List UInt8) :
    readBytes (0x5c :: String.utf8EncodeChar c ++ rest) = (readBytes rest).map fun p =>
      (Utf8.bytes ((escape? c).elim ['\\', c] ([·])) ++ p.1, p.2) := by
  rcases Nat.lt_or_ge c.toNat 0x80 with hlow | hhigh
  · rw [Utf8.bytes_low hlow]
    show (readBytes rest).map _ = _
    rw [escapeByte?_low hlow]
    congr 1
    funext p
    cases hescape : escape? c with
    | none =>
      show _ = (Utf8.bytes ['\\', c] ++ p.1, p.2)
      rw [Utf8.bytes, List.flatMap_cons, List.flatMap_cons, Utf8.bytes_low hlow]
      rfl
    | some d =>
      cases escape?_eq_some.mp hescape <;> rfl
  · -- The first byte is no escape and all are kept.
    have hnone : escape? c = none := escape?_eq_none.mpr fun d h => by
      cases h <;> exact absurd hhigh (by decide)
    have hplain : ∀ b ∈ String.utf8EncodeChar c, b ≠ 0x22 ∧ b ≠ 0x5c :=
      bytes_plain (by rintro rfl; exact absurd hhigh (by decide))
        (by rintro rfl; exact absurd hhigh (by decide))
    have hhighs := Utf8.byte_high hhigh
    rw [hnone]
    show _ = (readBytes rest).map fun p => (Utf8.bytes ['\\', c] ++ p.1, p.2)
    rw [Utf8.bytes, List.flatMap_cons, List.flatMap_cons, List.flatMap_nil, List.append_nil]
    obtain ⟨b, others, hbytes⟩ := List.exists_cons_of_ne_nil (@String.utf8EncodeChar_ne_nil c)
    rw [hbytes] at hplain hhighs ⊢
    have hb : escapeByte? b = none := by
      have hb := hhighs b List.mem_cons_self
      unfold escapeByte?
      repeat rw [if_neg (by rintro rfl; exact absurd hb (by decide))]
    show (readBytes (others ++ rest)).map _ = _
    rw [readBytes_plain (List.forall_mem_cons.mp hplain).2, Option.map_map, hb]
    rfl

/-- **Bytes are read as characters are.**  What the bytes of a text are read as is the bytes of what its
    characters are read as. -/
theorem readBytes_bytes (text : List Char) : readBytes (Utf8.bytes text) =
    (split? text).map fun (body, after) => (Utf8.bytes (decode body), Utf8.bytes after) := by
  fun_induction split? text with
  | case1 => rfl
  | case2 rest =>
    rw [Utf8.bytes, List.flatMap_cons, ← Utf8.bytes]
    show readBytes (0x22 :: Utf8.bytes rest) = _
    rw [readBytes.eq_def]
    rfl
  | case3 c rest ih =>
    rw [Utf8.bytes, List.flatMap_cons, List.flatMap_cons, ← List.append_assoc, ← Utf8.bytes]
    show readBytes (0x5c :: String.utf8EncodeChar c ++ Utf8.bytes rest) = _
    rw [readBytes_escape, ih, Option.map_map, Option.map_map]
    congr 1
    funext p
    simp only [Function.comp_apply, decode]
    cases escape? c <;> simp only [Option.elim, ← Utf8.bytes_append] <;> rfl
  | case4 c rest hquote hnot ih =>
    by_cases hslash : c = '\\'
    · -- A backslash is the last character.
      cases rest with
      | nil =>
        subst hslash
        rfl
      | cons d rest => exact absurd rfl (hnot d rest hslash)
    · rw [Utf8.bytes, List.flatMap_cons, ← Utf8.bytes, readBytes_plain (bytes_plain hquote hslash), ih,
        Option.map_map, Option.map_map]
      congr 1
      funext p
      simp only [Function.comp_apply, decode_plain hslash]
      rfl

/-! ## Literals -/

/-- What a string literal at some place of a source is read as. -/
structure StringLiteral (source : String) (span : Span) (value : String) : Prop where
  /-- Its value is what the text between its quotes stands for … -/
  decoded : ∃ body, stretch source span.start span.stop = '"' :: body ++ ['"'] ∧
    Decodes body value.toList
  /-- … also if its bytes are read one by one: up to its end they give the bytes of a text, so that
      nothing in them is replaced where they are taken for one. -/
  bytes : ∃ bytes, readBytes ((Text.encode source).drop (span.start + 1)) =
      some (bytes, (Text.encode source).drop span.stop) ∧
    Text.decode bytes = .ok value ∧ decodeLossy bytes = value
  /-- Every replacement character of its value stands between its quotes. -/
  replacements : value.toList.count replacement =
    (stretch source span.start span.stop).count replacement

/-- A quoted text that is written for a string is one token, with this string. -/
theorem items_quoted {text body : List Char} (h : Writes text body) :
    items (quoted body) = [.token ⟨.string (String.ofList text), quoted body, 1 + body.count '\n'⟩,
      .token (.finish (1 + body.count '\n'))] := by
  obtain ⟨henclosed, hdecode⟩ := decodes_iff.mp h.decodes
  have hlexeme := IsLexeme.string henclosed
  have hend : SetApart [] := nofun
  have hread := itemsAt_lexeme hlexeme hend 1
  have hlines : ('"' :: body ++ ['"']).count '\n' = body.count '\n' := by simp
  rw [List.append_nil, hdecode, hlines] at hread
  rw [items, quoted, String.toList_ofList]
  exact hread

/-- The bytes behind a place of a source. -/
theorem drop_encode {source : String} {before after : List Char} (h : source.toList = before ++ after) :
    (Text.encode source).drop (String.utf8Len before) = Utf8.bytes after := by
  rw [encode_eq_bytes, h, Utf8.bytes_append, ← Utf8.length_bytes, List.drop_left]

/-- No escape has to do with the replacement character. -/
theorem replacement_foreign (d : Char) : ¬ Escape d replacement ∧ ¬ Escape replacement d :=
  ⟨nofun, nofun⟩

/-- A token with a string is a literal of the source. -/
theorem stringLiteral_of_placed {source value : String} {t : Token} {span : Span}
    (hplaced : (.token t, span) ∈ placed source) (hkind : t.kind = .string value) :
    StringLiteral source span value := by
  have hend : t.isEof = false := by
    rw [Token.isEof, hkind]
    rfl
  -- The characters of the span are a literal, and the token stands for what they stand for.
  have hlegal := (placed_longest hend hplaced).legal
  obtain ⟨before, text, after, hsource, hspan, -, hlexeme, -⟩ :=
    (Tiled.of_cut (pieces_cut source.toList) []).lies _ hplaced
  simp only at hspan hlexeme
  rw [List.nil_append] at hsource
  rw [hkind, hlexeme, String.toList_ofList] at hlegal
  rw [hspan]
  cases hlegal with
  | @string body henclosed =>
    have hdecodes : Decodes body (String.ofList (decode body)).toList := by
      rw [String.toList_ofList]
      exact decodes_iff.mpr ⟨henclosed, rfl⟩
    have hstretch : stretch source (spanBehind before ('"' :: body ++ ['"'])).start
        (spanBehind before ('"' :: body ++ ['"'])).stop = '"' :: body ++ ['"'] := stretch_eq hsource
    refine ⟨⟨body, hstretch, hdecodes⟩, ⟨Utf8.bytes (decode body), ?_, ?_, ?_⟩, ?_⟩
    -- The bytes behind the opening quote are those of the rest of the source.
    · have hfrom : (Text.encode source).drop (String.utf8Len before + 1) =
          Utf8.bytes (body ++ '"' :: after) := by
        have hsplit : source.toList = (before ++ ['"']) ++ (body ++ '"' :: after) := by
          rw [hsource]
          simp
        exact String.utf8Len_append before ['"'] ▸ drop_encode hsplit
      have hbehind : (Text.encode source).drop (String.utf8Len (before ++ ('"' :: body ++ ['"']))) =
          Utf8.bytes after :=
        drop_encode (hsource.trans (List.append_assoc _ _ _).symm)
      rw [spanBehind, hfrom, hbehind, readBytes_bytes, henclosed.split?]
      rfl
    · rw [Text.decode, Utf8.read_bytes]
      rfl
    · exact congrArg String.ofList (Utf8.readLossy_of_read (Utf8.read_bytes (decode body) 0))
    · rw [hstretch, hdecodes.count (fun d => (replacement_foreign d).1) fun d => (replacement_foreign d).2]
      simp [replacement]

/-- **String literals lose nothing.**  A string that is written between quotes, its backslashes and
    quotes behind backslashes and its newlines, tabs and carriage returns as such or by their escapes, is
    read as one token with this string and then the end of the program; and there is such a text for
    every string.  Every token with a string, of any source, has the value that the text between its
    quotes stands for, character by character; read byte by byte it gives the bytes of the same text, and
    no replacement character comes into it. -/
theorem string_literals_lossless :
    (∀ (s : String) (body : List Char), Writes s.toList body →
      items (quoted body) = [.token ⟨.string s, quoted body, 1 + body.count '\n'⟩,
        .token (.finish (1 + body.count '\n'))]) ∧
    (∀ s : String, Writes s.toList (encode s.toList)) ∧
    ∀ (source : String) (t : Token) (span : Span) (value : String),
      (.token t, span) ∈ placed source → t.kind = .string value → StringLiteral source span value := by
  refine ⟨fun s body hwrites => ?_, fun s => writes_encode s.toList, fun _ _ _ _ => stringLiteral_of_placed⟩
  have hread := items_quoted hwrites
  rwa [String.ofList_toList] at hread

/-- A quote, a backslash and a newline are written by their escapes, and a letter with a mark as such;
    and of a literal that holds a backslash before such a letter, one before a newline and two before its
    last quote, all but one are kept. -/
theorem string_literals_lossless_escapes :
    items (quoted "\\\"\\\\\\né".toList) = [.token ⟨.string "\"\\\né", quoted "\\\"\\\\\\né".toList, 1⟩,
      .token (.finish 1)] ∧
    StringLiteral "x\"\\é\\\n\\\\\"" ⟨1, 10⟩ "\\é\\\n\\" := by
  refine ⟨string_literals_lossless.1 "\"\\\né" _ ?_, string_literals_lossless.2.2 _
    ⟨.string "\\é\\\n\\", "\"\\é\\\n\\\\\"", 2⟩ _ _ ?_ rfl⟩
  · exact .escape .quote (.escape .backslash (.escape .newline (.plain (by decide) (by decide) .nil)))
  · have hplaced : placed "x\"\\é\\\n\\\\\"" =
        [(.token ⟨.identifier, "x", 1⟩, ⟨0, 1⟩),
          (.token ⟨.string "\\é\\\n\\", "\"\\é\\\n\\\\\"", 2⟩, ⟨1, 10⟩),
          (.token (.finish 2), ⟨10, 10⟩)] := by cbv
    rw [hplaced]
    exact List.mem_cons_of_mem _ List.mem_cons_self

end Lox
