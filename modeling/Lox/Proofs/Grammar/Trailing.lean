import Lox.Proofs.Grammar.Exact

/-!
  The last expression of an interactive program.

  An interactive program may end with an expression that lacks its semicolon and is read as a statement
  which hands back a value (`Closes`).  Where a declaration may stand `func` begins a function, so this
  expression does not begin with it.  With this a program is read without a report if it can be derived
  (`parse_of_program`), and only then (`program_of_parse`).

  Both directions are known for programs that are derived as declarations.  What is to be added in the one
  is that the expression does not begin with `func` (`gives_value`), which the laws of single rules do not
  say; this is a second judgment of the same reading, put beside the first (`Gives.and`).  In the other
  the rules from `declaration` down to `expressionStatement` are executed on such an expression
  (`reads_value`), since no derivation of the grammar stands for it.
-/

namespace Lox.Grammar

/-- What stands behind the declarations of a program: nothing, or the last expression of an interactive
    one. -/
inductive Closes (interactive : Bool) : Stand → List Stmt → Stand → Prop where
  | nothing {s : Stand} : Closes interactive s [] s
  | value {s u : Stand} {e : Expr} : interactive = true → u.1 = [] → s.NotFunc → Derives .expression s e u →
    Closes interactive s [.value e] u

/-- A program is derived: its declarations, and what stands behind them. -/
def DerivesProgram (interactive : Bool) (s : Stand) (program : List Stmt) (u : Stand) : Prop :=
  ∃ before last v, program = before ++ last ∧ Derives (.declarations false) s before v ∧
    Closes interactive v last u

/-! ## What has been read has been derived -/

namespace Gives

variable {α : Type} {g : Setting} {s : Stand}

/-- Two things may be said of the same reading. -/
theorem and {p : Production α} {P Q : α → Stand → Prop} (h : Gives g s p P) (h' : Gives g s p Q) :
    Gives g s p fun a u => P a u ∧ Q a u := by
  intro c hg hs a d hp
  exact ⟨(h c hg hs a d hp).1, fun hd => ⟨(h c hg hs a d hp).2 hd, (h' c hg hs a d hp).2 hd⟩⟩

end Gives

section Sound

variable {g : Setting}

/-- A phrase that hands back a value does not begin with `func`. -/
theorem gives_value (fuel : Nat) (s : Stand) :
    Gives g s (phrase fuel) fun d _ => ∀ e, d = .value e → s.NotFunc := by
  have hother : ∀ {t ts i k}, s = (t :: ts, i) → t.kind = .keyword k → k ≠ .funcKw → s.NotFunc := by
    rintro t ts i k rfl hk hne _ ⟨⟩ hfunc
    rw [Token.IsKeyword, hk] at hfunc
    exact hne (by injection hfunc)
  cases fuel with
  | zero => rintro c hg hs a d ⟨⟩
  | succ fuel =>
    refine .acceptKind (fun t ts i hs hk => ?_) fun _ => .acceptKind (fun t ts i _ _ => ?_) fun hfunc =>
      .acceptKind (fun t ts i hs hk => ?_) fun _ => ?_
    · exact .of_tame (tame fuel).classDeclaration fun _ _ _ _ => hother hs hk nofun
    · exact .bind (.of_tame ((tame fuel).routine _ _) fun _ _ => trivial) fun d v => .pure nofun
    · exact .of_tame (tame fuel).varDeclaration fun _ _ _ _ => hother hs hk nofun
    · refine .of_tame (tame fuel).statement fun _ _ _ _ t ht hk => ?_
      obtain ⟨ts, i⟩ := s
      obtain ⟨ts, rfl⟩ := List.head?_eq_some_iff.mp ht
      exact hfunc t ts i rfl hk

/-- Up to the end of a program declarations are read, and what stands behind them. -/
theorem gives_program (hg : g.inLoop = false) (fuel : Nat) (s : Stand) :
    Gives g s (declarations fuel false) fun ds u =>
      DerivesProgram g.interactive s ds u ∧ (s.1 = [] → ds = [] ∧ u = s) := by
  induction fuel generalizing s with
  | zero => rintro c hg hs a d ⟨⟩
  | succ fuel ih =>
    refine .atEnd (fun hs => ?_) fun hs => ?_
    · have hnone : DerivesProgram g.interactive s [] s := ⟨[], [], s, rfl, .noDeclarations, .nothing⟩
      exact .sees (fun _ => .pure ⟨hnone, fun _ => ⟨rfl, rfl⟩⟩) fun _ => .pure ⟨hnone, fun _ => ⟨rfl, rfl⟩⟩
    · have hfirst : Gives g s (declaration fuel) fun a u => ∃ d, a = some d ∧
          ((Derives (.declaration g.inLoop) s d u ∨ Trailing g s d u) ∧ ∀ e, d = .value e → s.NotFunc) := by
        cases fuel with
        | zero => rintro c hg hs a d ⟨⟩
        | succ fuel =>
          exact .recover (((sound g fuel).phrase s).and (gives_value fuel s)) (tame fuel).phrase
      have go : Gives g s (do
          let first ← declaration fuel
          let rest ← declarations fuel false
          pure (first.toList ++ rest)) fun ds u =>
          DerivesProgram g.interactive s ds u ∧ (s.1 = [] → ds = [] ∧ u = s) := by
        refine .bind hfirst fun first v => .bind (ih v) fun rest w => .pure ?_
        rintro ⟨⟨before, last, x, rfl, hbefore, hlast⟩, hnil⟩ ⟨d, rfl, hd | hd, hvalue⟩
        · rw [hg] at hd
          exact ⟨⟨d :: before, last, x, rfl, .declarations hd hbefore, hlast⟩, fun h => absurd h hs⟩
        · -- Behind an expression that lacks its semicolon there is nothing more.
          obtain ⟨hrest, rfl⟩ := hnil hd.2.1
          obtain ⟨hinteractive, hend, e, rfl, he⟩ := hd
          rw [hrest]
          exact ⟨⟨[], [.value e], s, rfl, .noDeclarations, .value hinteractive hend (hvalue e rfl) he⟩,
            fun h => absurd h hs⟩
      exact .sees (fun _ => go) fun _ => go

end Sound

/-- **A program that was read without a report has been derived.** -/
theorem program_of_parse {tokens : List Token} {interactive : Bool} {firstId : Nat}
    (h : (parse tokens interactive firstId).diagnostics = []) :
    ∃ u : Stand, u.1 = [] ∧ u.2 = (parse tokens interactive firstId).nextId ∧
      DerivesProgram interactive (tokens.takeWhile (!·.isEof), firstId)
        (parse tokens interactive firstId).program u := by
  rw [parse] at h ⊢
  have hends := declarations_ends (Cursor.start tokens interactive firstId) false
  cases hrun : declarations (enoughFuel (Cursor.start tokens interactive firstId).ahead.length) false
      (Cursor.start tokens interactive firstId) with
  | done program d =>
    rw [hrun] at h
    have hclean := Array.toList_eq_nil_iff.mp h
    have htrails := (sound ⟨false, interactive⟩ _).declarations _ false _ ⟨rfl, rfl⟩ rfl program d hrun
    have hgives := gives_program (g := ⟨false, interactive⟩) rfl _ _ _ ⟨rfl, rfl⟩ rfl program d hrun
    exact ⟨d.stand, (htrails.2 hclean).2.1 rfl, rfl, (hgives.2 hclean).1⟩
  | failed problem d =>
    rw [hrun] at h
    simp [Cursor.report] at h
  | exhausted => exact absurd hrun hends

/-! ## What can be derived is read -/

/-- The last expression of an interactive program is read as one that hands back its value. -/
theorem reads_value {s u : Stand} {e : Expr} (hu : u.1 = []) (hf : s.NotFunc)
    (h : Derives .expression s e u) (fuel : Nat) {c : Cursor} (hc : c.stand = s) (hi : c.interactive = true) :
    phrase fuel c = .exhausted ∨ phrase fuel c = .done (.value e) (c.move u) := by
  have hbegins := h.begins rfl
  obtain ⟨t, ts, i, hs, ht⟩ := hbegins
  have hpass : ∀ fits : TokenKind → Bool, fits t.kind = false → acceptWhere fits c = .done none c := by
    intro fits hfits
    refine acceptWhere_pass ?_
    rw [hc, hs]
    rintro _ ⟨⟩
    exact hfits
  have hkind : ∀ kind : TokenKind, t.kind ≠ kind → accept kind c = .done none c :=
    fun kind hne => hpass _ (decide_eq_false hne)
  have hne : ∀ kind : TokenKind, startsExpression kind = false → t.kind ≠ kind := by
    rintro _ hkind rfl
    exact absurd ht (by rw [show Category.expression.begins t.kind = false from hkind]; nofun)
  have hfunc : t.kind ≠ .keyword .funcKw := hf t (by rw [hs]; rfl)
  -- There is no token behind the expression that could go on with it.
  have hfree : u.Free expressionEnds := by
    rintro kind - ⟨t', ts', hts', -⟩
    rw [hu] at hts'
    cases hts'
  cases fuel with
  | zero => exact .inl rfl
  | succ fuel =>
    -- What an expression begins with is no declaration's first token, and no other statement's.
    rw [phrase, Action.bind_of_done (hkind _ (hne _ rfl))]
    dsimp only
    rw [Action.bind_of_done (hkind _ hfunc)]
    dsimp only
    rw [Action.bind_of_done (hkind _ (hne _ rfl))]
    cases fuel with
    | zero => exact .inl rfl
    | succ fuel =>
      dsimp only
      rw [statement, Action.bind_of_done (hpass _ (not_startsStatement ht))]
      cases fuel with
      | zero => exact .inl rfl
      | succ fuel =>
        dsimp only
        rw [expressionStatement]
        rcases complete h hfree false fuel c nofun hc with hrun | hrun
        · exact .inl (Action.bind_of_exhausted hrun)
        · rw [Action.bind_of_done hrun]
          have hend : ((c.move u).interactive && (c.move u).atEnd) = true := by
            rw [Cursor.atEnd, show (c.move u).ahead = [] from hu, show (c.move u).interactive = true from hi]
            rfl
          right
          show (if ((c.move u).interactive && (c.move u).atEnd) = true then pure (Stmt.value e) else do
            let _ ← expect .expressionEnd
            pure (Stmt.expression e)) (c.move u) = _
          rw [hend]
          rfl

/-- A declaration that is read is put before those that are read behind it. -/
theorem declarations_step {fuel : Nat} {c e : Cursor} {d : Stmt} {ds : List Stmt} {v : Stand}
    (hne : c.ahead ≠ [])
    (hfirst : declaration fuel c = .exhausted ∨ declaration fuel c = .done (some d) (c.move v))
    (hrest : declarations fuel false (c.move v) = .exhausted ∨
      declarations fuel false (c.move v) = .done ds e) :
    declarations (fuel + 1) false c = .exhausted ∨ declarations (fuel + 1) false c = .done (d :: ds) e := by
  have hend : (c.atEnd || (false && c.sees (.mark .rightBrace))) = false := by
    rw [Bool.false_and, Bool.or_false, Cursor.atEnd]
    exact Bool.eq_false_iff.mpr fun h => hne (List.isEmpty_iff.mp h)
  rw [declarations_run, hend, if_neg Bool.false_ne_true]
  rcases hfirst with hfirst | hfirst
  · exact .inl (Action.bind_of_exhausted hfirst)
  · rw [Action.bind_of_done hfirst]
    rcases hrest with hrest | hrest
    · exact .inl (Action.bind_of_exhausted hrest)
    · exact .inr (Action.bind_of_done hrest)

/-- The declarations of a program are read, and what stands behind them. -/
theorem reads_program {interactive : Bool} {before last : List Stmt} {s v u : Stand}
    (h : Derives (.declarations false) s before v) (hlast : Closes interactive v last u) (hu : u.1 = [])
    (fuel : Nat) {c : Cursor} (hc : c.stand = s) (hi : c.interactive = interactive) :
    declarations fuel false c = .exhausted ∨
      declarations fuel false c = .done (before ++ last) (c.move u) := by
  -- No `else` follows a declaration, be it before another one, before an expression or at the end.
  have hv : ¬ v.Sees (.keyword .elseKw) := by
    cases hlast with
    | nothing =>
      rintro ⟨t, ts, hts, -⟩
      rw [hu] at hts
      cases hts
    | value _ _ _ he => exact (he.begins rfl).not_sees rfl
  have hnone : Derives (.declarations false) u [] u := .noDeclarations
  induction before generalizing s fuel c with
  | nil =>
    cases h
    cases hlast with
    | nothing => exact complete hnone false (.inl hu) fuel c nofun hc
    | @value _ e hinteractive _ hf he =>
      cases fuel with
      | zero => exact .inl rfl
      | succ fuel =>
        have hne : c.ahead ≠ [] := by
          obtain ⟨t, ts, i, rfl, -⟩ := he.begins rfl
          rw [show c.ahead = t :: ts from congrArg Prod.fst hc]
          exact List.cons_ne_nil _ _
        have hread : declaration fuel c = .exhausted ∨ declaration fuel c = .done (some (.value e)) (c.move u) := by
          cases fuel with
          | zero => exact .inl rfl
          | succ fuel =>
            rw [declaration, Action.recover, map_eq_pure_bind]
            rcases reads_value hu hf he fuel hc (hi.trans hinteractive) with hrun | hrun
            · exact .inl (by rw [Action.bind_of_exhausted hrun])
            · exact .inr (by rw [Action.bind_of_done hrun]; rfl)
        exact declarations_step hne hread (complete hnone false (.inl hu) fuel (c.move u) nofun rfl)
  | cons d ds ih =>
    cases h with
    | @declarations _ _ _ w _ _ hd hds =>
      cases fuel with
      | zero => exact .inl rfl
      | succ fuel =>
        have hread : Reads false s (declaration fuel) (some d) w :=
          .rule rfl (fun fuel => .recover (complete hd (not_sees_else hds hv) fuel)) fuel
        have hne : c.ahead ≠ [] := by
          obtain ⟨t, ts, i, rfl, -⟩ := hd.begins rfl
          rw [show c.ahead = t :: ts from congrArg Prod.fst hc]
          exact List.cons_ne_nil _ _
        exact declarations_step hne (hread c nofun hc) (ih hds fuel rfl hi)

/-- **A program that can be derived is read without a report.** -/
theorem parse_of_program {tokens : List Token} {finish : Token} (hf : finish.isEof = true)
    (ht : ∀ t ∈ tokens, t.isEof = false) {interactive : Bool} {firstId j : Nat} {program : List Stmt}
    (h : DerivesProgram interactive (tokens, firstId) program ([], j)) :
    parse (tokens ++ [finish]) interactive firstId = ⟨program, [], j⟩ := by
  obtain ⟨before, last, v, rfl, hbefore, hlast⟩ := h
  have hends := declarations_ends (Cursor.start (tokens ++ [finish]) interactive firstId) false
  rcases reads_program hbefore hlast rfl
    (enoughFuel (Cursor.start (tokens ++ [finish]) interactive firstId).ahead.length)
    (start_stand hf ht interactive firstId) rfl with hrun | hrun
  · exact absurd hrun hends
  · simp only [parse, hrun]
    rfl

end Lox.Grammar
