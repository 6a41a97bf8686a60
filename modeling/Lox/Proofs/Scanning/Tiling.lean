import Mathlib.Data.String.Basic
import Lox.Proofs.Scanning.Stretches

/-!
  A program text, tiled by what it brings up.

  Every item that reading brings up has a span, from one byte of the source to another (`placed`).  A reader
  gives the items one by one, each with its span, then the end of the program and then nothing any more
  (`Reader.answer`); the list of items is what it gives if it is asked often enough (`find_placedFrom`).

  `Tiled done rest found` is the invariant: behind the text `done` the items `found` are what `rest` brings up,
  each behind a gap, each with the characters of its span, and the last one at the end.  It is made piece by
  piece from the cut of a text (`Tiled.of_cut`); a gap goes to the item behind it (`Tiled.behind`).

  From it everything is read off (`scanner_tiles_source`):

  * the spans lie in order, do not overlap and end between characters;
  * a token shows the characters of its span, and an error what could not be read;
  * between the spans, before the first and behind the last there are gaps only;
  * the line of an item is that on which its span ends;
  * the end of the program comes once, at the end.
-/

namespace Lox

/-! ## Spans -/

/-- Where an item lies in a source: behind so many bytes, up to so many. -/
structure Span where
  start : Nat
  stop : Nat
  deriving DecidableEq, Repr

/-- The characters of a source between two of its bytes. -/
def stretch (source : String) (start stop : Nat) : List Char :=
  (String.Pos.Raw.extract source ⟨start⟩ ⟨stop⟩).toList

/-- A place between two characters of a source, by the number of bytes before it. -/
def Boundary (source : String) (place : Nat) : Prop := String.Pos.Raw.IsValid source ⟨place⟩

/-- The line of an item. -/
def Item.line : Item → Nat
  | token t => t.line
  | fault line _ => line

/-- Whether the item is the end of the program. -/
def Item.isEnd : Item → Bool
  | token t => t.isEof
  | fault .. => false

/-- The items of pieces that start behind so many bytes on a given line, with their spans. -/
def placedFrom (place line : Nat) : List Piece → List (Item × Span)
  | [] => [(.token (.finish line), ⟨place, place⟩)]
  | piece :: rest =>
    let stop := place + String.utf8Len piece.text
    let last := line + piece.newlines
    match piece with
    | .gap _ => placedFrom stop last rest
    | .lexeme kind text =>
      (.token ⟨kind, String.ofList text, last⟩, ⟨place, stop⟩) :: placedFrom stop last rest
    | .fault cause _ => (.fault last cause, ⟨place, stop⟩) :: placedFrom stop last rest

/-- All items of a program text in their order, with their spans. -/
def placed (source : String) : List (Item × Span) := placedFrom 0 1 (pieces source.toList)

/-- The items with their spans are the items. -/
theorem placedFrom_items (place line : Nat) (ps : List Piece) :
    (placedFrom place line ps).map Prod.fst = itemsFrom line ps := by
  induction ps generalizing place line with
  | nil => rfl
  | cons piece rest ih =>
    -- A gap is joined to what follows; anything else is an item where the text is by now.
    cases piece with
    | gap text => exact ih _ _
    | lexeme kind text => exact congrArg _ (ih _ _)
    | fault cause text => exact congrArg _ (ih _ _)

/-! ## One item at a time -/

/-- What is left to be read. -/
structure Reader where
  left : List Piece
  /-- The number of bytes that have been read. -/
  place : Nat
  line : Nat
  /-- Whether the end of the program has been given. -/
  finished : Bool

namespace Reader

/-- The reader of a program text. -/
def start (source : String) : Reader := ⟨pieces source.toList, 0, 1, false⟩

/-- The next item behind gaps, and the reader behind it. -/
def find (place line : Nat) : List Piece → (Item × Span) × Reader
  | [] => ((.token (.finish line), ⟨place, place⟩), ⟨[], place, line, true⟩)
  | piece :: rest =>
    let stop := place + String.utf8Len piece.text
    let last := line + piece.newlines
    match piece with
    | .gap _ => find stop last rest
    | .lexeme kind text =>
      ((.token ⟨kind, String.ofList text, last⟩, ⟨place, stop⟩), ⟨rest, stop, last, false⟩)
    | .fault cause _ => ((.fault last cause, ⟨place, stop⟩), ⟨rest, stop, last, false⟩)

/-- The next item, unless the end of the program has been given, and the reader behind it. -/
def next (r : Reader) : Option (Item × Span) × Reader :=
  if r.finished then (none, r)
  else
    let (found, behind) := find r.place r.line r.left
    (some found, behind)

/-- What the reader gives when it is asked again, behind so many answers. -/
def answer (r : Reader) : Nat → Option (Item × Span)
  | 0 => r.next.1
  | k + 1 => r.next.2.answer k

/-- All that the reader has still to give. -/
def remainder (r : Reader) : List (Item × Span) :=
  if r.finished then [] else placedFrom r.place r.line r.left

/-- The first item with its span, and then those of what is left. -/
theorem find_placedFrom (place line : Nat) (ps : List Piece) :
    placedFrom place line ps = (find place line ps).1 :: (find place line ps).2.remainder := by
  induction ps generalizing place line with
  | nil => rfl
  | cons piece rest ih =>
    cases piece with
    | gap text => exact ih _ _
    | lexeme kind text => rfl
    | fault cause text => rfl

/-- What is given next is the first of what has still to be given. -/
theorem next_eq (r : Reader) :
    r.next.1 = r.remainder.head? ∧ r.next.2.remainder = r.remainder.tail := by
  unfold next remainder
  by_cases hfinished : r.finished = true
  · simp [hfinished]
  · rw [Bool.not_eq_true] at hfinished
    rw [find_placedFrom]
    simp [hfinished, remainder]

/-- **One by one the reader gives all that it has to give, and then nothing for ever.** -/
theorem answer_eq (r : Reader) (k : Nat) : r.answer k = r.remainder[k]? := by
  induction k generalizing r with
  | zero => rw [answer, r.next_eq.1, List.head?_eq_getElem?]
  | succ k ih => rw [answer, ih, r.next_eq.2, List.getElem?_tail]

end Reader

/-! ## Tiles

  The items lie one behind the other, with gaps in between that are blanks and comments. -/

/-- The item is what these characters are read as, before the text that follows them. -/
def Item.Reads (line : Nat) (text after : List Char) : Item → Prop
  | token t => t.line = line ∧ t.lexeme = String.ofList text ∧
    ∀ x, t.kind = .number x → Numeral text
  | fault l cause => l = line ∧ Unread cause text after

/-- The line on which a text ends that starts on the first line. -/
def lineBehind (text : List Char) : Nat := 1 + text.count '\n'

/-- Lines are counted on. -/
theorem lineBehind_append (text text' : List Char) :
    lineBehind (text ++ text') = lineBehind text + text'.count '\n' := by
  rw [lineBehind, lineBehind, List.count_append, Nat.add_assoc]

/-- The span of a text behind another. -/
def spanBehind (before text : List Char) : Span :=
  ⟨String.utf8Len before, String.utf8Len (before ++ text)⟩

/-- Behind what is done, the rest of a text is tiled by gaps and items. -/
inductive Tiled : List Char → List Char → List (Item × Span) → Prop where
  | finish {done gap : List Char} : Gap gap [] →
    Tiled done gap [(.token (.finish (lineBehind (done ++ gap))), spanBehind (done ++ gap) [])]
  | item {done gap text after : List Char} {item : Item} {found : List (Item × Span)} :
    Gap gap (text ++ after) → item.isEnd = false →
    item.Reads (lineBehind (done ++ gap ++ text)) text after →
    Tiled (done ++ gap ++ text) after found →
    Tiled done (gap ++ (text ++ after)) ((item, spanBehind (done ++ gap) text) :: found)

namespace Tiled

variable {done rest : List Char} {found : List (Item × Span)}

/-- A further gap before all else. -/
theorem behind {gap : List Char} (h : Tiled (done ++ gap) rest found) (hgap : Gap gap rest) :
    Tiled done (gap ++ rest) found := by
  generalize hdone : done ++ gap = start at h
  -- The gap goes to what comes first behind it: the next item, or the end.
  cases h with
  | finish hrest =>
    subst hdone
    have hboth : Gap (gap ++ rest) [] := Gap.append (by rwa [List.append_nil]) hrest
    rw [List.append_assoc]
    exact .finish hboth
  | item hrest hend hreads htiled =>
    subst hdone
    have hboth := Gap.append hgap hrest
    rw [List.append_assoc done] at hreads htiled ⊢
    rw [← List.append_assoc gap]
    exact .item hboth hend hreads htiled

/-- An item without a gap before it. -/
theorem here {text after : List Char} {item : Item} (h : Tiled (done ++ text) after found)
    (hend : item.isEnd = false) (hreads : item.Reads (lineBehind (done ++ text)) text after) :
    Tiled done (text ++ after) ((item, spanBehind done text) :: found) := by
  have hitem := @Tiled.item done [] text after item found (.nil _) hend
  rw [List.append_nil] at hitem
  exact hitem hreads h

/-- **The items of pieces that are cut from a text tile it.** -/
theorem of_cut {ps : List Piece} (h : Cut rest ps) (done : List Char) :
    Tiled done rest (placedFrom (String.utf8Len done) (lineBehind done) ps) := by
  induction h generalizing done with
  | nil =>
    have hfinish := @Tiled.finish done [] (.nil [])
    rw [spanBehind, List.append_nil, List.append_nil] at hfinish
    exact hfinish
  | @cons piece after ps _ hfits _ ih =>
    -- The rest is tiled behind this piece; the piece itself fits by what cut it off.
    have hrest := ih (done ++ piece.text)
    have hline : lineBehind (done ++ piece.text) = lineBehind done + piece.newlines :=
      lineBehind_append done piece.text
    have hstop := String.utf8Len_append done piece.text
    cases piece with
    | gap text =>
      rw [hstop, hline] at hrest
      exact hrest.behind hfits
    | lexeme kind text =>
      obtain ⟨hkind, hnumeral⟩ := hfits
      rw [placedFrom]
      rw [← hstop, ← hline]
      exact hrest.here (decide_eq_false hkind) ⟨rfl, rfl, hnumeral⟩
    | fault cause text =>
      rw [placedFrom]
      rw [← hstop, ← hline]
      exact hrest.here rfl ⟨rfl, hfits⟩

end Tiled

/-- The item lies somewhere in the text, and is what the characters there are read as. -/
def Lies (whole : List Char) (p : Item × Span) : Prop :=
  ∃ before text after, whole = before ++ (text ++ after) ∧ p.2 = spanBehind before text ∧
    p.1.Reads (lineBehind (before ++ text)) text after

/-- From the end of the span before it (or the beginning) up to the item there is a gap. -/
def Adjoins (whole : List Char) (first : Nat) (xs : List (Item × Span)) (p : Item × Span) : Prop :=
  ∃ before gap after, whole = before ++ (gap ++ after) ∧
    xs.getLast?.elim first (·.2.stop) = String.utf8Len before ∧
    p.2.start = String.utf8Len (before ++ gap) ∧ Gap gap after

namespace Tiled

variable {done rest : List Char} {found : List (Item × Span)}

/-- By induction on the items. -/
theorem lies (h : Tiled done rest found) : ∀ p ∈ found, Lies (done ++ rest) p := by
  induction h with
  | @finish done gap hgap =>
    intro p hp
    cases List.mem_singleton.mp hp
    refine ⟨done ++ gap, [], [], (List.append_nil _).symm, rfl, ?_, rfl, nofun⟩
    rw [List.append_nil]
    rfl
  | @item done gap text after item found hgap hend hreads htiled ih =>
    intro p hp
    rcases List.mem_cons.mp hp with rfl | hp
    · exact ⟨done ++ gap, text, after, (List.append_assoc _ _ _).symm, rfl, hreads⟩
    · have hp := ih p hp
      simp only [List.append_assoc] at hp ⊢
      exact hp

/-- The last item is the end of the program, and no other one is. -/
theorem ends (h : Tiled done rest found) : ∃ before,
    found = before ++ [(.token (.finish (lineBehind (done ++ rest))), spanBehind (done ++ rest) [])] ∧
      ∀ p ∈ before, p.1.isEnd = false := by
  induction h with
  | finish hgap => exact ⟨[], rfl, nofun⟩
  | @item done gap text after item found hgap hend hreads htiled ih =>
    obtain ⟨before, hfound, hbefore⟩ := ih
    refine ⟨(item, spanBehind (done ++ gap) text) :: before, ?_, ?_⟩
    · rw [hfound]
      simp only [List.append_assoc, List.cons_append]
    · intro p hp
      rcases List.mem_cons.mp hp with rfl | hp
      · exact hend
      · exact hbefore p hp

/-- The items lie behind what is done, in order. -/
theorem ordered (h : Tiled done rest found) : (∀ p ∈ found, String.utf8Len done ≤ p.2.start) ∧
    found.Pairwise fun p q => p.2.stop ≤ q.2.start := by
  induction h with
  | @finish done gap hgap =>
    refine ⟨fun p hp => ?_, List.pairwise_singleton _ _⟩
    cases List.mem_singleton.mp hp
    simp [spanBehind]
  | @item done gap text after item found hgap hend hreads htiled ih =>
    obtain ⟨hstart, hpairwise⟩ := ih
    refine ⟨fun p hp => ?_, List.pairwise_cons.mpr ⟨hstart, hpairwise⟩⟩
    rcases List.mem_cons.mp hp with rfl | hp
    · simp [spanBehind]
    · have hle := hstart p hp
      simp only [String.utf8Len_append] at hle
      omega

/-- Between an item and the one before it there is a gap: by induction on the items before it. -/
theorem adjoins (h : Tiled done rest found) {xs ys : List (Item × Span)} {p : Item × Span}
    (hsplit : found = xs ++ p :: ys)   : Adjoins (done ++ rest) (String.utf8Len done) xs p := by
  induction h generalizing xs with
  | @finish done gap hgap =>
    cases xs with
    | nil =>
      cases hsplit
      refine ⟨done, gap, [], by rw [List.append_nil], rfl, rfl, hgap⟩
    | cons x xs => simp at hsplit
  | @item done gap text after item found hgap hend hreads htiled ih =>
    cases xs with
    | nil =>
      cases hsplit
      exact ⟨done, gap, text ++ after, rfl, rfl, rfl, hgap⟩
    | cons x xs =>
      obtain ⟨rfl, htail⟩ := List.cons_eq_cons.mp hsplit
      -- The span before is that of the first item, unless there are others between.
      obtain ⟨before, gap', after', hwhole, hlast, hstart, hgap'⟩ := ih htail
      refine ⟨before, gap', after', ?_, ?_, hstart, hgap'⟩
      · rw [← hwhole]
        simp only [List.append_assoc]
      · rw [← hlast]
        cases xs with
        | nil => rfl
        | cons x xs => simp [List.getLast?_cons]

end Tiled

/-! ## Sources -/

section Places

variable {source : String} {before text after : List Char}

/-- The characters between two places of a source. -/
theorem stretch_eq (h : source.toList = before ++ (text ++ after)) :
    stretch source (String.utf8Len before) (String.utf8Len (before ++ text)) = text := by
  have hsource : source = String.ofList (before ++ text ++ after) := by
    rw [List.append_assoc, ← h, String.ofList_toList]
  rw [stretch, hsource, String.utf8Len_append, String.extract_of_valid, String.toList_ofList]

/-- The characters from a place up to the end of a source. -/
theorem stretch_end (h : source.toList = before ++ after) :
    stretch source (String.utf8Len before) source.utf8ByteSize = after := by
  have hsize : source.utf8ByteSize = String.utf8Len (before ++ after) := by
    rw [← h, ← String.utf8ByteSize_ofList, String.ofList_toList]
  rw [hsize]
  have hall : source.toList = before ++ (after ++ []) := by rw [h, List.append_nil]
  exact stretch_eq hall

/-- The characters from the beginning of a source up to a place. -/
theorem stretch_start (h : source.toList = before ++ after) :
    stretch source 0 (String.utf8Len before) = before :=
  @stretch_eq source [] before after h

/-- A place between the characters of a source. -/
theorem boundary (h : source.toList = before ++ after) : Boundary source (String.utf8Len before) := by
  refine String.Pos.Raw.isValid_iff_exists_append.mpr ⟨String.ofList before, String.ofList after, ?_, ?_⟩
  · rw [← String.ofList_append, ← h, String.ofList_toList]
  · rw [← String.utf8ByteSize_ofList]
    rfl

end Places

/-- The items, each with its span, are what a source brings up, and with gaps between them they are
    all of it. -/
structure Tiles (source : String) (found : List (Item × Span)) : Prop where
  /-- They are the items of the source. -/
  same : found.map Prod.fst = items source
  /-- A reader gives them one by one, and then nothing for ever. -/
  answers : ∀ k, (Reader.start source).answer k = found[k]?
  /-- The last one, and none before it, is the end of the program. -/
  finish : ∃ before, found = before ++ [(.token (.finish (lineBehind source.toList)),
      ⟨source.utf8ByteSize, source.utf8ByteSize⟩)] ∧ ∀ p ∈ before, p.1.isEnd = false
  /-- No span begins before the one before it has ended. -/
  ordered : found.Pairwise fun p q => p.2.stop ≤ q.2.start
  /-- The spans begin and end between characters of the source. -/
  boundaries : ∀ p ∈ found, p.2.start ≤ p.2.stop ∧ Boundary source p.2.start ∧
    Boundary source p.2.stop
  /-- The line of an item is that on which its span ends. -/
  lines : ∀ p ∈ found, p.1.line = lineBehind (stretch source 0 p.2.stop)
  /-- A token shows the characters of its span. -/
  lexemes : ∀ t span, (.token t, span) ∈ found → t.lexeme.toList = stretch source span.start span.stop
  /-- Every number is one that can be read. -/
  numerals : ∀ t span x, (.token t, span) ∈ found → t.kind = .number x → Numeral t.lexeme.toList
  /-- The span of a fault is a stretch that cannot be read, and that is no numeral. -/
  faults : ∀ line cause span, (.fault line cause, span) ∈ found →
    Unread cause (stretch source span.start span.stop) (stretch source span.stop source.utf8ByteSize) ∧
      ¬ "Invalid numeric literal".toList <+: cause.message.toList
  /-- From the end of one span (or the beginning) to the next one there is a gap. -/
  gaps : ∀ xs p ys, found = xs ++ p :: ys →
    xs.getLast?.elim 0 (·.2.stop) ≤ p.2.start ∧
    Gap (stretch source (xs.getLast?.elim 0 (·.2.stop)) p.2.start)
      (stretch source p.2.start source.utf8ByteSize)

/-- No fault is worded like one about a numeral. -/
theorem LexicalFault.message_numeral (cause : LexicalFault) :
    ¬ "Invalid numeric literal".toList <+: cause.message.toList := by
  have hhead : cause.message.toList.head? = some 'U' := by
    cases cause with
    | unexpectedCharacter c =>
      show ("Unexpected character: " ++ c.toString).toList.head? = some 'U'
      simp
    | unterminatedString => rfl
    | unterminatedComment => rfl
  rintro ⟨rest, hrest⟩
  rw [← hrest] at hhead
  simp at hhead

/-- **The items of a source tile it.**  Read to its end, a source brings up the tokens and faults of a
    finite list, of which the last one, and no other, is the end of the program, on the last line; asked
    again, the reader has nothing more.  Each item has a span of the source, from one place between
    characters to another.  The spans lie in order and apart, with nothing between them but blanks and
    comments; a token shows the characters of its span, a fault is about one character with which
    nothing can begin, or about a string or a comment that is not closed before the end of the source,
    and never about a numeral; and each item is on the line on which its span ends. -/
theorem scanner_tiles_source (source : String) : Tiles source (placed source) := by
  -- All is proved of the characters; bytes come in with their lengths.
  have htiled : Tiled [] source.toList (placed source) := Tiled.of_cut (pieces_cut source.toList) []
  have hsize : String.utf8Len source.toList = source.utf8ByteSize := by
    rw [← String.utf8ByteSize_ofList, String.ofList_toList]
  constructor
  case same => exact placedFrom_items 0 1 _
  case answers => exact (Reader.start source).answer_eq
  case finish =>
    obtain ⟨before, hfound, hbefore⟩ := htiled.ends
    refine ⟨before, ?_, hbefore⟩
    rw [hfound, spanBehind, List.nil_append, List.append_nil, hsize]
  case ordered => exact htiled.ordered.2
  case boundaries =>
    intro p hp
    obtain ⟨before, text, after, hwhole, hspan, -⟩ := htiled.lies p hp
    rw [hspan]
    have hstop : source.toList = (before ++ text) ++ after := by
      rw [List.append_assoc]
      exact hwhole
    refine ⟨?_, boundary hwhole, boundary hstop⟩
    simp [spanBehind]
  case lines =>
    intro p hp
    obtain ⟨before, text, after, hwhole, hspan, hreads⟩ := htiled.lies p hp
    have hstretch := stretch_start (show source.toList = (before ++ text) ++ after by
      rw [List.append_assoc]; exact hwhole)
    rw [hspan]
    show p.1.line = lineBehind (stretch source 0 (String.utf8Len (before ++ text)))
    rw [hstretch]
    obtain ⟨item, span⟩ := p
    cases item with
    | token t => exact hreads.1
    | fault line cause => exact hreads.1
  case lexemes =>
    intro t span hp
    obtain ⟨before, text, after, hwhole, hspan, -, hlexeme, -⟩ := htiled.lies _ hp
    have hstretch := stretch_eq hwhole
    rw [show span = spanBehind before text from hspan, hlexeme, String.toList_ofList]
    exact hstretch.symm
  case numerals =>
    intro t span x hp hkind
    obtain ⟨before, text, after, -, -, -, hlexeme, hnumeral⟩ := htiled.lies _ hp
    rw [hlexeme, String.toList_ofList]
    exact hnumeral x hkind
  case faults =>
    intro line cause span hp
    obtain ⟨before, text, after, hwhole, hspan, -, hunread⟩ := htiled.lies _ hp
    have hstretch := stretch_eq hwhole
    have hbehind := stretch_end (show source.toList = (before ++ text) ++ after by
      rw [List.append_assoc]; exact hwhole)
    refine ⟨?_, cause.message_numeral⟩
    rw [show span = spanBehind before text from hspan]
    show Unread cause (stretch source (String.utf8Len before) (String.utf8Len (before ++ text)))
      (stretch source (String.utf8Len (before ++ text)) source.utf8ByteSize)
    rw [hstretch, hbehind]
    exact hunread
  case gaps =>
    intro xs p ys hsplit
    obtain ⟨before, gap, after, hwhole, hlast, hstart, hgap⟩ := htiled.adjoins hsplit
    have hlast' : xs.getLast?.elim 0 (·.2.stop) = String.utf8Len before := hlast
    have hstretch := stretch_eq hwhole
    have hbehind := stretch_end (show source.toList = (before ++ gap) ++ after by
      rw [List.append_assoc]; exact hwhole)
    rw [hlast', hstart, hstretch, hbehind]
    refine ⟨?_, hgap⟩
    rw [String.utf8Len_append]
    omega

end Lox
