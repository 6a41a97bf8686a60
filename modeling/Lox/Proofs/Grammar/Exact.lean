import Lox.Proofs.Grammar.Complete

/-!
  Reading a program accepts exactly the grammar.

  A program that is read without a report has been derived (`Grammar.sound`), one that can be derived
  is read (`Grammar.complete`), and reading always comes to an end (`declarations_ends`).  So reading
  a list of tokens reports nothing if and only if it can be derived, and gives the tree of its
  derivation, of which there is only one.

  The two halves are about cursors and fuel; here they are put together to a statement about lists of
  tokens, in which neither is left.  A list of tokens is read up to the first token that is an end, with
  the fuel for as many tokens as there are, and reading begins with no report and outside of every loop.  So
  what `sound` and `complete` ask of a cursor holds of the first one, and running out of fuel, which both of
  them leave open, does not happen.
-/

namespace Lox.Grammar

/-! ## Where reading starts -/

/-- What is read is what stands before the end. -/
theorem takeWhile_before_end {tokens : List Token} {finish : Token} (hf : finish.isEof = true)
    (ht : ∀ t ∈ tokens, t.isEof = false) :
    (tokens ++ [finish]).takeWhile (!·.isEof) = tokens := by
  rw [List.takeWhile_append_of_pos (by simpa using ht), List.takeWhile_cons_of_neg (by simp [hf]),
    List.append_nil]

/-- Reading starts at the first token, with the first number. -/
theorem start_stand {tokens : List Token} {finish : Token} (hf : finish.isEof = true)
    (ht : ∀ t ∈ tokens, t.isEof = false) (interactive : Bool) (firstId : Nat) :
    (Cursor.start (tokens ++ [finish]) interactive firstId).stand = (tokens, firstId) := by
  rw [Cursor.stand, Cursor.start, takeWhile_before_end hf ht]

/-- Reading a program only goes on numbering. -/
theorem parse_nextId_le (tokens : List Token) (interactive : Bool) (firstId : Nat) :
    firstId ≤ (parse tokens interactive firstId).nextId := by
  rw [parse]
  have htame := (tame (enoughFuel (Cursor.start tokens interactive firstId).ahead.length)).declarations
    false (Cursor.start tokens interactive firstId)
  generalize declarations _ false (Cursor.start tokens interactive firstId) = ending at htame
  cases ending with
  | done program d => exact (htame d rfl).nextId
  | failed problem d => exact (htame d rfl).nextId
  | exhausted => exact Nat.le_refl firstId

/-! ## Both directions -/

/-- What has been read without a report has been derived, but for the last expression of an
    interactive program. -/
theorem trails_of_parse {tokens : List Token} {interactive : Bool} {firstId : Nat}
    (h : (parse tokens interactive firstId).diagnostics = []) :
    ∃ u : Stand, u.1 = [] ∧ u.2 = (parse tokens interactive firstId).nextId ∧
      Trails ⟨false, interactive⟩ (tokens.takeWhile (!·.isEof), firstId)
        (parse tokens interactive firstId).program u := by
  rw [parse] at h ⊢
  have hends := declarations_ends (Cursor.start tokens interactive firstId) false
  cases hrun : declarations (enoughFuel (Cursor.start tokens interactive firstId).ahead.length) false
      (Cursor.start tokens interactive firstId) with
  | done program d =>
    rw [hrun] at h
    have hgives := (sound ⟨false, interactive⟩ _).declarations _ false _ ⟨rfl, rfl⟩ rfl program d hrun
    obtain ⟨htrails, hend, -⟩ := hgives.2 (Array.toList_eq_nil_iff.mp h)
    exact ⟨d.stand, hend rfl, rfl, htrails⟩
  | failed problem d =>
    rw [hrun] at h
    simp [Cursor.report] at h
  | exhausted => exact absurd hrun hends

/-- What can be derived is read, without a report. -/
theorem parse_of_derives {tokens : List Token} {finish : Token} (hf : finish.isEof = true)
    (ht : ∀ t ∈ tokens, t.isEof = false) {firstId j : Nat} {program : List Stmt}
    (h : Derives (.declarations false) (tokens, firstId) program ([], j)) :
    parse (tokens ++ [finish]) false firstId = ⟨program, [], j⟩ := by
  have hends := declarations_ends (Cursor.start (tokens ++ [finish]) false firstId) false
  have hread := complete h false (.inl rfl)
    (enoughFuel (Cursor.start (tokens ++ [finish]) false firstId).ahead.length)
    (Cursor.start (tokens ++ [finish]) false firstId) nofun (start_stand hf ht false firstId)
  rcases hread with hrun | hrun
  · exact absurd hrun hends
  · simp only [parse, hrun]
    rfl

/-- **Reading a program accepts exactly the grammar and gives the tree of the derivation.**  Nothing
    is reported if and only if the tokens before the end can be derived as declarations that stand in
    no loop; and then, whichever derivation it is, its tree is the program. -/
theorem parse_accepts_exactly_grammar (tokens : List Token) (finish : Token) (firstId : Nat)
    (hf : finish.isEof = true) (ht : ∀ t ∈ tokens, t.isEof = false) :
    ((parse (tokens ++ [finish]) false firstId).diagnostics = [] ↔
      ∃ program j, Derives (.declarations false) (tokens, firstId) program ([], j)) ∧
    ∀ program j, Derives (.declarations false) (tokens, firstId) program ([], j) →
      parse (tokens ++ [finish]) false firstId = ⟨program, [], j⟩ := by
  refine ⟨⟨fun h => ?_, ?_⟩, fun program j => parse_of_derives hf ht⟩
  · obtain ⟨⟨rest, j⟩, hrest, -, program, ⟨rest', j'⟩, hd, hlast⟩ := trails_of_parse h
    rw [takeWhile_before_end hf ht] at hd
    rcases hlast with ⟨-, heq⟩ | ⟨d, -, htrailing⟩
    · cases heq
      exact ⟨program, j, hrest ▸ hd⟩
    · exact absurd htrailing.1 nofun
  · rintro ⟨program, j, hd⟩
    rw [parse_of_derives hf ht hd]

/-- The `break` stands in the body of the loop, the one name gets the first number. -/
theorem parse_accepts_loop :
    let x : Token := ⟨.identifier, "x", 1⟩
    let stop : Token := ⟨.keyword .breakKw, "break", 1⟩
    let tokens : List Token := [⟨.keyword .whileKw, "while", 1⟩, x, ⟨.mark .leftBrace, "\x7b", 1⟩, stop,
      ⟨.mark .semicolon, ";", 1⟩, ⟨.mark .rightBrace, "\x7d", 1⟩]
    (Token.finish 1).isEof = true ∧ (∀ t ∈ tokens, t.isEof = false) ∧
      parse (tokens ++ [.finish 1]) false 7 =
        ⟨[.whileLoop (.variable ⟨7, x⟩) (.block [.breakLoop stop])], [], 8⟩ := by
  intro x stop tokens
  have hf : (Token.finish 1).isEof = true := by decide
  have ht : ∀ t ∈ tokens, t.isEof = false := by decide
  refine ⟨hf, ht, (parse_accepts_exactly_grammar tokens (.finish 1) 7 hf ht).2 _ _ ?_⟩
  have condition : Derives .expression (x :: tokens.drop 2, 7) (.variable ⟨7, x⟩)
      (tokens.drop 2, 8) :=
    .ternary (.operators (.operand (.operand (.operand (.operand (.operand (.operand
      (.unary (.call (.primary (.name rfl)))))))))))
  have body : Derives (.declarations true) (tokens.drop 3, 8) [.breakLoop stop]
      (tokens.drop 5, 8) :=
    .declarations (.statement (by rintro t ⟨⟩; exact nofun) (.breakLoop rfl rfl)) .noDeclarations
  exact .declarations (.statement (by rintro t ⟨⟩; exact nofun)
    (.whileLoop rfl condition (.block rfl body rfl))) .noDeclarations

end Lox.Grammar
