import Lox.Lexeme

/-!
  How the tokens of a program text are spelled.

  A keyword is written as it is, and no name is written like one.  So no variable, parameter or class of a
  program can be called `this` or `super`, which are names for the scopes around methods
  (`Token.Spelled.plain`).

  `Token.Spelled` says it of a token by its kind, and `Piece.Spelled` of what the scanner cuts off.  Only names
  need an argument: the scanner looks a word up among the keywords, and what it finds is spelled so by the
  table of keywords itself.  All other readers give kinds of which nothing is asked.  By induction on the
  pieces of a source it holds of all its tokens (`spelled_of_tokensOf`).
-/

namespace Lox

/-- Keywords are written as they are, and names unlike them. -/
structure TokenKind.Spells (kind : TokenKind) (lexeme : String) : Prop where
  name : kind = .identifier → Keyword.ofText? lexeme = none
  keyword : ∀ k, kind = .keyword k → lexeme = k.text

/-- The token is spelled as its kind asks for. -/
def Token.Spelled (t : Token) : Prop := t.kind.Spells t.lexeme

/-- The token cannot be mistaken for `this` or `super`. -/
structure Token.Plain (t : Token) : Prop where
  not_this : t.lexeme ≠ "this"
  not_super : t.lexeme ≠ "super"

/-- A name is spelled like none of the keywords. -/
theorem Token.Spelled.plain {t : Token} (h : t.Spelled) (hn : t.kind = .identifier) : t.Plain := by
  have hname := h.name hn
  refine ⟨fun ht => ?_, fun ht => ?_⟩
  · rw [ht] at hname
    exact absurd hname (by decide)
  · rw [ht] at hname
    exact absurd hname (by decide)

/-- A kind that is neither a name nor a keyword asks for no spelling. -/
theorem TokenKind.spells_other {kind : TokenKind} {lexeme : String} (hn : kind ≠ .identifier)
    (hk : ∀ k, kind ≠ .keyword k) : kind.Spells lexeme :=
  ⟨fun h => absurd h hn, fun k h => absurd h (hk k)⟩

/-! ## Pieces -/

/-- The lexeme that the piece is, if it is one, is spelled as its kind asks for. -/
def Piece.Spelled : Piece → Prop
  | .lexeme kind text => kind.Spells (String.ofList text)
  | _ => True

/-- A word is a keyword if the table of keywords has it, and else a name. -/
theorem readName_spelled (c : Char) (rest : List Char) : (readName c rest).1.Spelled := by
  simp only [readName, Piece.Spelled]
  cases hk : Keyword.ofText? (String.ofList (c :: rest.takeWhile isNamePart)) with
  | none =>
    refine ⟨fun _ => hk, ?_⟩
    rintro _ ⟨⟩
  | some k =>
    refine ⟨fun h => (by cases h), ?_⟩
    rintro _ ⟨⟩
    rw [Keyword.ofText?] at hk
    have htext := List.find?_some hk
    simpa using (of_decide_eq_true htext).symm

theorem readMark_spelled (c : Char) (rest : List Char) : (readMark c rest).1.Spelled := by
  unfold readMark
  split
  · exact TokenKind.spells_other nofun nofun
  · split
    · exact TokenKind.spells_other nofun nofun
    · trivial

theorem readNumber_spelled (c : Char) (rest : List Char) : (readNumber c rest).1.Spelled := by
  unfold readNumber
  dsimp only
  split
  · exact TokenKind.spells_other nofun nofun
  · exact TokenKind.spells_other nofun nofun

theorem readString_spelled (rest : List Char) : (readString rest).1.Spelled := by
  unfold readString
  split
  · exact TokenKind.spells_other nofun nofun
  · trivial

theorem readBlockComment_spelled (rest : List Char) : (readBlockComment rest).1.Spelled := by
  unfold readBlockComment
  split <;> trivial

/-- Whatever the next piece is. -/
theorem nextPiece_spelled (c : Char) (rest : List Char) : (nextPiece c rest).1.Spelled := by
  unfold nextPiece
  split
  · trivial
  · split
    · exact readString_spelled rest
    · split
      · exact readNumber_spelled c rest
      · split
        · exact readName_spelled c rest
        · split
          · trivial
          · exact readBlockComment_spelled _
          · exact readMark_spelled c rest

/-- By induction on how many pieces are asked for. -/
theorem pieces_upTo_spelled (count : Nat) (text : List Char) :
    ∀ piece ∈ pieces.upTo count text, piece.Spelled := by
  induction count generalizing text with
  | zero => exact nofun
  | succ count ih =>
    cases text with
    | nil => exact nofun
    | cons c rest =>
      rintro piece (_ | ⟨_, h⟩)
      · exact nextPiece_spelled c rest
      · exact ih _ piece h

/-! ## Tokens -/

/-- By induction on the pieces; the end of the file is spelled by no text. -/
theorem spelled_of_itemsFrom {line : Nat} {ps : List Piece} (hp : ∀ piece ∈ ps, piece.Spelled)
    {t : Token} (ht : .token t ∈ itemsFrom line ps) : t.Spelled := by
  induction ps generalizing line with
  | nil =>
    cases ht with
    | head => exact TokenKind.spells_other nofun nofun
    | tail _ h => cases h
  | cons piece rest ih =>
    have hrest := fun p h => hp p (List.mem_cons_of_mem _ h)
    cases piece with
    | gap text => exact ih hrest ht
    | fault cause text =>
      cases ht with
      | tail _ h => exact ih hrest h
    | lexeme kind text =>
      cases ht with
      | head => exact hp _ List.mem_cons_self
      | tail _ h => exact ih hrest h

/-- **Every token of a program text is spelled as its kind asks for.** -/
theorem spelled_of_tokensOf {source : String} {t : Token} (ht : t ∈ tokensOf (items source)) :
    t.Spelled := by
  obtain ⟨item, hi, hit⟩ := List.mem_filterMap.mp ht
  cases item with
  | token t' =>
    cases hit
    exact spelled_of_itemsFrom (pieces_upTo_spelled _ _) hi
  | fault line cause => cases hit

end Lox
