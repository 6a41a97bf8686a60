import Lox.Proofs.Grammar.Progress

/-!
  The number of tokens bounds the fuel.

  Most productions read at least one token where they succeed (`Eats`).  A rule of rank `r` comes to
  an end if its fuel is at least `32` for each token ahead and `r` more (`Suffices`): it calls rules
  of lower rank where it has read nothing yet, and any rule behind a token.  The highest rank is
  below `32`, so reading a program never runs out of fuel (`declarations_ends`).

  Fuel stands for the depth of calls: a rule gives to each rule it calls one unit less than it has itself.
  So for every rule there are two questions about each call in it: has a token been read before
  (`Suffices.bind_eats`, `Suffices.accept`, then the 32 units of this token pay for it), and if not, is the rank
  lower (`Suffices.succ`).  The ranks order the rules from `block` down to `primary`, along the calls
  that can come about without a token read: declarations begin with a declaration, this may begin with a
  statement, this with an expression, this with its tiers of operators, and so on (`Enough`).  What a rule
  does behind a token only, as `calls` and `moreOperators` do, does not raise its rank.

  A declaration that is given up has read a token too, for then the rest of it is skipped
  (`declaration_length_lt`); so the loop of declarations comes to an end whatever they are.
-/

namespace Lox.Grammar

variable {α β : Type}

/-! ## Productions that read a token

  If such a production succeeds there are fewer tokens left. -/

/-- Where the production succeeds, it has read at least one token. -/
def Eats (p : Production α) : Prop :=
  ∀ c a d, p c = .done a d → d.ahead.length < c.ahead.length

/-- A tame production does not add tokens. -/
theorem Tame.length_le {p : Production α} (h : Tame p) {c d : Cursor} {a : α}
    (hp : p c = .done a d) : d.ahead.length ≤ c.ahead.length :=
  (h c d (by rw [hp]; rfl)).length_le

namespace Eats

/-- If the first part reads a token so does the whole. -/
theorem bind_left {x : Production α} {f : α → Production β} (hx : Eats x)
    (hf : ∀ a, Tame (f a)) : Eats (x >>= f) := by
  intro c b e h
  obtain ⟨a, d, hxc, hfd⟩ := Action.bind_eq_done_iff.mp h
  have h₁ := hx c a d hxc
  have h₂ := (hf a).length_le hfd
  omega

/-- Either a token is accepted, or something else reads one. -/
theorem acceptWhere {fits : TokenKind → Bool} {f : Option Token → Production β}
    (hsome : ∀ t, Tame (f (some t))) (hnone : Eats (f none)) :
    Eats (acceptWhere fits >>= f) := by
  intro c b e h
  obtain ⟨a, d, hxc, hfd⟩ := Action.bind_eq_done_iff.mp h
  rw [Lox.Grammar.acceptWhere] at hxc
  split at hxc
  · rename_i t rest hc
    split at hxc
    · cases hxc
      have h₂ := (hsome t).length_le hfd
      simp only [hc, List.length_cons]
      exact Nat.lt_succ_of_le h₂
    · cases hxc
      exact hnone c b e hfd
  · cases hxc
    exact hnone c b e hfd

/-- What fails does not succeed. -/
theorem fail (fault : SyntacticFault) : Eats (failHere fault : Production α) := by
  rintro c a d ⟨⟩

/-- A token that must be there is read. -/
theorem require (kind : TokenKind) (fault : SyntacticFault) : Eats (require kind fault) :=
  acceptWhere (fun t => tame_closed.pure t) (fail fault)

/-- A name is read. -/
theorem expectName (role : NameRole) : Eats (expectName role) := require _ _

/-- A mark in its place is read. -/
theorem expect (place : Place) : Eats (expect place) := require _ _

end Eats

/-- The rules that an expression begins with read at least one token. -/
structure ExpressionsEat (fuel : Nat) : Prop where
  expression : Eats (expression fuel)
  ternary : Eats (ternary fuel)
  operators : ∀ levels, Eats (operators fuel levels)
  unary : Eats (unary fuel)
  primary : Eats (primary fuel)

/-- Each atom is a token at least. -/
theorem eats_primary (fuel : Nat) : Eats (primary (fuel + 1)) := by
  have ht := tame fuel
  refine .acceptWhere (fun t => tame_closed.pure _) ?_
  refine .acceptWhere (fun t => tame_closed.bind (tame_closed.freshRef _) fun _ =>
    tame_closed.pure _) ?_
  refine .acceptWhere (fun t => tame_closed.bind ht.expression fun _ =>
    tame_closed.bind (tame_closed.expect _) fun _ => tame_closed.pure _) ?_
  refine .acceptWhere (fun t => tame_closed.bind (tame_closed.freshRef _) fun _ =>
    tame_closed.pure _) ?_
  refine .acceptWhere (fun t => tame_closed.bind (tame_closed.expect _) fun _ =>
    tame_closed.bind (tame_closed.expectName _) fun _ =>
    tame_closed.bind (tame_closed.freshRef _) fun _ => tame_closed.pure _) ?_
  exact .fail _

/-- Every expression begins with an atom or with a prefix. -/
theorem expressionsEat (fuel : Nat) : ExpressionsEat fuel := by
  induction fuel with
  | zero => constructor <;> intros <;> rintro c a d ⟨⟩
  | succ fuel ih =>
    have ht := tame fuel
    refine ⟨?_, ?_, ?_, ?_, eats_primary fuel⟩
    · exact .bind_left ih.ternary fun _ => tame_closed.assignmentTo _ ht.expression
    · exact .bind_left (ih.operators _) fun _ => tame_closed.choiceBy _ ht.ternary
    · intro levels
      cases levels with
      | nil => exact ih.unary
      | cons level tighter => exact .bind_left (ih.operators _) fun _ => ht.moreOperators _ _ _
    · refine .acceptWhere (fun t => tame_closed.bind ht.unary fun _ => tame_closed.pure _) ?_
      refine .acceptWhere (fun t => tame_closed.bind (ht.routine _ _) fun _ =>
        tame_closed.pure _) ?_
      exact .bind_left ih.primary fun _ => ht.calls _

/-- A statement that is an expression reads what the expression does. -/
theorem eats_expressionStatement (fuel : Nat) : Eats (expressionStatement fuel) := by
  cases fuel with
  | zero => rintro c a d ⟨⟩
  | succ fuel =>
    refine .bind_left (expressionsEat fuel).expression fun value => ?_
    refine tame_closed.bind (tame_closed.read _) fun interactive => ?_
    refine tame_closed.bind tame_closed.atEnd fun ended => ?_
    split
    · exact tame_closed.pure _
    · exact tame_closed.bind (tame_closed.expect _) fun _ => tame_closed.pure _

/-- A statement begins with its keyword or brace, or is an expression. -/
theorem eats_statement (fuel : Nat) : Eats (statement fuel) := by
  cases fuel with
  | zero => rintro c a d ⟨⟩
  | succ fuel =>
    refine .acceptWhere (fun t => ?_) (eats_expressionStatement fuel)
    dsimp only
    split
    · exact tame_closed.withLoops _ (tame fuel).forStatement
    · exact tame_closed.withLoops _ (tame fuel).whileStatement
    · exact (tame fuel).ifStatement
    · exact (tame fuel).returnStatement _
    · exact tame_closed.breakStatement _
    · exact tame_closed.bind (tame fuel).block fun body => tame_closed.pure _

/-- A declaration begins with its keyword or is a statement. -/
theorem eats_phrase (fuel : Nat) : Eats (phrase fuel) := by
  cases fuel with
  | zero => rintro c a d ⟨⟩
  | succ fuel =>
    refine .acceptWhere (fun t => (tame fuel).classDeclaration) ?_
    refine .acceptWhere (fun t => tame_closed.bind ((tame fuel).routine _ _) fun d =>
      tame_closed.pure _) ?_
    exact .acceptWhere (fun t => (tame fuel).varDeclaration) (eats_statement fuel)

/-- A declaration reads a token, unless there is none: where it fails, that at which it is given
    up. -/
theorem declaration_length_lt {fuel : Nat} {c d : Cursor} {a : Option Stmt}
    (h : declaration fuel c = .done a d) (hc : c.ahead ≠ []) : d.ahead.length < c.ahead.length := by
  cases fuel with
  | zero => cases h
  | succ fuel =>
    rw [declaration, map_eq_pure_bind] at h
    simp only [Action.recover, bind] at h
    cases hp : phrase fuel c with
    | done s e =>
      simp only [hp, pure] at h
      cases h
      exact eats_phrase fuel c s d hp
    | failed problem e =>
      simp only [hp] at h
      have hle := ((tame fuel).phrase c e (by rw [hp]; rfl)).length_le
      have hpos := List.length_pos_iff.mpr hc
      simp only [resume, bind, Action.update, skipToBoundary, Cursor.report, pure] at h
      cases h
      -- Behind a failure at least the token at which it happened is skipped.
      cases he : e.ahead with
      | nil => simpa [he] using hpos
      | cons t rest =>
        have hskip := (nextBoundary_suffix t rest).length_le
        simp only [he, List.length_cons] at hle ⊢
        omega
    | exhausted =>
      simp only [hp] at h
      cases h

/-! ## Fuel that suffices

  Fuel suffices for a number of tokens and a rank: the rank bounds how many rules call each other before the
  next token is read. -/

/-- The production comes to an end wherever the fuel is `32` for each token ahead and `rank` more. -/
structure Suffices (fuel rank : Nat) {α : Type} (p : Production α) : Prop where
  tame : Tame p
  ends : ∀ c, 32 * c.ahead.length + rank ≤ fuel → p c ≠ .exhausted

namespace Suffices

variable {fuel rank : Nat}

/-- A lower rank is enough where a higher one is. -/
theorem mono {p : Production α} {lower : Nat} (h : Suffices fuel lower p) (hr : lower ≤ rank) :
    Suffices fuel rank p :=
  ⟨h.tame, fun c hc => h.ends c (by omega)⟩

/-- A rule calls other rules with one unit less. -/
theorem succ {p : Production α} (h : Suffices fuel rank p) : Suffices (fuel + 1) (rank + 1) p :=
  ⟨h.tame, fun c hc => h.ends c (by omega)⟩

/-- What stands behind a token may be of any rank. -/
theorem bind_eats {x : Production α} {f : α → Production β} (hx : Suffices fuel rank x)
    (he : Eats x) (hf : ∀ a, Suffices fuel (rank + 32) (f a)) : Suffices fuel rank (x >>= f) := by
  refine ⟨tame_closed.bind hx.tame fun a => (hf a).tame, fun c hc => ?_⟩
  cases hxc : x c with
  | done a d =>
    rw [Action.bind_of_done hxc]
    have hlt := he c a d hxc
    exact (hf a).ends d (by omega)
  | failed p d =>
    rw [Action.bind_of_failed hxc]
    exact nofun
  | exhausted => exact absurd hxc (hx.ends c hc)

/-- Where a token is accepted, what follows may be of any rank. -/
theorem accept {fits : TokenKind → Bool} {f : Option Token → Production β}
    (hsome : ∀ t, Suffices fuel (rank + 32) (f (some t))) (hnone : Suffices fuel rank (f none)) :
    Suffices fuel rank (acceptWhere fits >>= f) := by
  refine ⟨tame_closed.bind (tame_closed.acceptWhere _) fun t => ?_, fun c hc => ?_⟩
  · cases t with
    | some t => exact (hsome t).tame
    | none => exact hnone.tame
  · have stay : f none c ≠ .exhausted := hnone.ends c hc
    cases hc' : c.ahead with
    | nil => simpa [acceptWhere, bind, hc'] using stay
    | cons t rest =>
      have go : f (some t) { c with ahead := rest } ≠ .exhausted := by
        refine (hsome t).ends _ ?_
        rw [hc', List.length_cons] at hc
        simp only
        omega
      cases hf : fits t.kind with
      | true => simpa [acceptWhere, bind, hc', hf] using go
      | false => simpa [acceptWhere, bind, hc', hf] using stay

/-- A failed declaration is given up at once. -/
theorem recover {x : Production α} (hx : Suffices fuel rank x) :
    Suffices fuel rank (.recover (some <$> x) resume) := by
  refine ⟨tame_closed.recover hx.tame, fun c hc => ?_⟩
  rw [map_eq_pure_bind]
  cases hxc : x c with
  | done a d => simp [Action.recover, bind, pure, hxc]
  | failed p d =>
    simp [Action.recover, bind, hxc, resume, Action.update, skipToBoundary, pure]
  | exhausted => exact absurd hxc (hx.ends c hc)

end Suffices

/-- Single tokens take no fuel, and sequences that call no rule of a higher rank do not need more. -/
theorem suffices_combines (fuel rank : Nat) : Combines (@Suffices fuel rank) where
  pure := fun a => ⟨tame_closed.pure a, fun c _ h => by cases h⟩
  bind := by
    intro α β x f hx hf
    refine ⟨tame_closed.bind hx.tame fun a => (hf a).tame, fun c hc => ?_⟩
    cases hxc : x c with
    | done a d =>
      rw [Action.bind_of_done hxc]
      -- What is left behind the first step is no longer than before, so the bound still holds.
      have hle := hx.tame.length_le hxc
      exact (hf a).ends d (by omega)
    | failed p d =>
      rw [Action.bind_of_failed hxc]
      intro h
      cases h
    | exhausted => exact absurd hxc (hx.ends c hc)
  acceptWhere := by
    intro fits
    refine ⟨tame_closed.acceptWhere fits, fun c _ h => ?_⟩
    rw [acceptWhere] at h
    repeat' split at h
    all_goals cases h
  read := fun view => ⟨tame_closed.read view, fun c _ h => by cases h⟩
  report := fun token fault => ⟨tame_closed.report token fault, fun c _ h => by cases h⟩
  failHere := fun fault => ⟨tame_closed.failHere fault, fun c _ h => by cases h⟩
  freshRef := fun name => ⟨tame_closed.freshRef name, fun c _ h => by cases h⟩
  withLoops := by
    intro α depth x hx
    refine ⟨tame_closed.withLoops depth hx.tame, fun c hc h => ?_⟩
    have inner := hx.ends { c with loopDepth := depth c.loopDepth } hc
    simp only [withLoops, Action.keeping, bind, Action.update] at h
    cases hxc : x { c with loopDepth := depth c.loopDepth } with
    | done a d => rw [hxc] at h; cases h
    | failed p d => rw [hxc] at h; cases h
    | exhausted => exact absurd hxc inner

/-! ## Enough fuel for every rule

  Ranks are given so that each rule calls rules of lower rank, or reads a token first. -/

/-- The ranks of the rules. -/
structure Enough (fuel : Nat) : Prop where
  primary : Suffices fuel 1 (primary fuel)
  calls : ∀ callee, Suffices fuel 1 (calls fuel callee)
  unary : Suffices fuel 2 (unary fuel)
  operators : ∀ levels, levels.length ≤ 6 →
    Suffices fuel (levels.length + 3) (operators fuel levels)
  moreOperators : ∀ level tighter left, tighter.length ≤ 6 →
    Suffices fuel 1 (moreOperators fuel level tighter left)
  ternary : Suffices fuel 10 (ternary fuel)
  expression : Suffices fuel 11 (expression fuel)
  arguments : Suffices fuel 12 (arguments fuel)
  routine : ∀ kind keyword, Suffices fuel 1 (routine fuel kind keyword)
  methods : Suffices fuel 1 (methods fuel)
  classDeclaration : Suffices fuel 1 (classDeclaration fuel)
  varDeclaration : Suffices fuel 1 (varDeclaration fuel)
  forStatement : Suffices fuel 12 (forStatement fuel)
  whileStatement : Suffices fuel 12 (whileStatement fuel)
  ifStatement : Suffices fuel 12 (ifStatement fuel)
  returnStatement : ∀ keyword, Suffices fuel 12 (returnStatement fuel keyword)
  expressionStatement : Suffices fuel 12 (expressionStatement fuel)
  statement : Suffices fuel 13 (statement fuel)
  phrase : Suffices fuel 14 (phrase fuel)
  declaration : Suffices fuel 15 (declaration fuel)
  declarations : ∀ inBlock, Suffices fuel 16 (declarations fuel inBlock)
  block : Suffices fuel 17 (block fuel)

/-- Parameters read a name before they call themselves. -/
theorem suffices_parameters (fuel : Nat) : Suffices fuel 1 (parameters fuel) := by
  induction fuel with
  | zero => exact ⟨tame_closed.outOfFuel, fun c hc => by omega⟩
  | succ fuel ih =>
    have h := suffices_combines fuel 0
    have later := suffices_combines fuel 32
    refine Suffices.succ (.bind_eats (h.expectName _) (.expectName _) fun first => ?_)
    refine later.bind (later.accept _) fun comma => ?_
    cases comma with
    | some comma => exact later.bind (ih.mono (by omega)) fun rest => later.pure _
    | none => exact later.pure _

/-- Where declarations end, and how they go on. -/
theorem declarations_run (fuel : Nat) (inBlock : Bool) (c : Cursor) :
    declarations (fuel + 1) inBlock c =
      if c.atEnd || (inBlock && c.sees (.mark .rightBrace)) then .done [] c
      else (do
        let first ← declaration fuel
        let rest ← declarations fuel inBlock
        pure (first.toList ++ rest)) c :=
  apply_ite (fun p : Production (List Stmt) => p c) _ _ _

/-- A declaration reads a token, so those behind it may be of the same rank. -/
theorem suffices_declarations {fuel : Nat} (hd : Suffices fuel 15 (declaration fuel))
    (hds : ∀ inBlock, Suffices fuel 16 (declarations fuel inBlock)) (inBlock : Bool) :
    Suffices (fuel + 1) 16 (declarations (fuel + 1) inBlock) := by
  refine ⟨(tame (fuel + 1)).declarations inBlock, fun c hc => ?_⟩
  rw [declarations_run]
  split
  · exact nofun
  · rename_i hstop
    have he : c.ahead ≠ [] := by
      rintro he
      simp [Cursor.atEnd, he] at hstop
    cases hxc : declaration fuel c with
    | done a d =>
      rw [Action.bind_of_done hxc]
      have hlt := declaration_length_lt hxc he
      have h := suffices_combines fuel 16
      exact (h.bind (hds inBlock) fun rest => h.pure _).ends d (by omega)
    | failed p d =>
      rw [Action.bind_of_failed hxc]
      exact nofun
    | exhausted => exact absurd hxc (hd.ends c (by omega))

/-- Of each rule the fuel is enough if one unit less is enough for the rules of lower rank. -/
theorem enough_succ {fuel : Nat} (ih : Enough fuel) : Enough (fuel + 1) where
  -- Behind a token that has been taken, the bound allows 32 more calls (`later`); before it only a rule of
  -- lower rank.
  primary := by
    have h := suffices_combines fuel 0
    have later := suffices_combines fuel 32
    refine .succ ?_
    refine .accept (fun token => later.pure _) ?_
    refine .accept (fun name => later.bind (later.freshRef _) fun _ => later.pure _) ?_
    refine .accept (fun left => later.bind (ih.expression.mono (by omega)) fun _ =>
      later.bind (later.expect _) fun _ => later.pure _) ?_
    refine .accept (fun keyword => later.bind (later.freshRef _) fun _ => later.pure _) ?_
    refine .accept (fun keyword => later.bind (later.expect _) fun _ =>
      later.bind (later.expectName _) fun _ => later.bind (later.freshRef _) fun _ =>
      later.pure _) ?_
    exact h.failHere _
  calls := by
    intro callee
    have h := suffices_combines fuel 0
    have later := suffices_combines fuel 32
    refine .succ ?_
    refine .accept (fun left => ?_) (.accept (fun dot => ?_) (h.pure _))
    · exact later.bind (later.unlessSees _ _ (ih.arguments.mono (by omega))) fun given =>
        later.bind (later.expect _) fun paren => (ih.calls _).mono (by omega)
    · exact later.bind (later.expectName _) fun name => (ih.calls _).mono (by omega)
  unary := by
    have later := suffices_combines fuel 33
    refine .succ ?_
    refine .accept (fun operator => ?_) (.accept (fun keyword => ?_) ?_)
    · exact later.bind (ih.unary.mono (by omega)) fun right => later.pure _
    · exact later.bind ((ih.routine _ _).mono (by omega)) fun d => later.pure _
    · exact (suffices_combines fuel 1).bind ih.primary fun callee => ih.calls _
  operators := by
    intro levels hl
    cases levels with
    | nil => exact .succ ih.unary
    | cons level tighter =>
      rw [List.length_cons] at hl
      refine .succ (.bind_eats ((ih.operators tighter (by omega)).mono (by simp))
        ((expressionsEat fuel).operators _) fun left => ?_)
      exact (ih.moreOperators _ _ _ (by omega)).mono (by omega)
  moreOperators := by
    intro level tighter left hl
    have later := suffices_combines fuel 32
    refine .succ (.accept (fun operator => ?_) ((suffices_combines fuel 0).pure _))
    exact later.bind ((ih.operators _ hl).mono (by omega)) fun right =>
      (ih.moreOperators _ _ _ hl).mono (by omega)
  ternary := by
    have later := suffices_combines fuel 41
    refine .succ (.bind_eats (ih.operators levels (Nat.le_refl 6))
      ((expressionsEat fuel).operators _) fun condition => ?_)
    exact later.choiceBy _ (ih.ternary.mono (by omega))
  expression := by
    have later := suffices_combines fuel 42
    refine .succ (.bind_eats ih.ternary (expressionsEat fuel).ternary fun target => ?_)
    exact later.assignmentTo _ (ih.expression.mono (by omega))
  arguments := by
    have later := suffices_combines fuel 43
    refine .succ (.bind_eats ih.expression (expressionsEat fuel).expression fun first => ?_)
    refine later.bind (later.accept _) fun comma => ?_
    cases comma with
    | some comma => exact later.bind (ih.arguments.mono (by omega)) fun rest => later.pure _
    | none => exact later.pure _
  routine := by
    intro kind keyword
    have h := suffices_combines fuel 0
    have later := suffices_combines fuel 32
    refine .succ (h.bind (h.routineName _) fun name => ?_)
    refine .bind_eats (h.expect _) (.expect _) fun _ => ?_
    refine later.bind (later.unlessSees _ _ ((suffices_parameters fuel).mono (by omega)))
      fun params => ?_
    exact later.bind (later.expect _) fun _ => later.bind (later.expect _) fun _ =>
      later.bind (later.withLoops _ (ih.block.mono (by omega))) fun body => later.pure _
  methods := by
    have h := suffices_combines fuel 0
    have later := suffices_combines fuel 32
    refine .succ (h.bind (h.sees _) fun atBrace => h.bind h.atEnd fun ended => ?_)
    split
    · exact h.pure _
    · refine .bind_eats (h.require _ _) (.require _ _) fun keyword => ?_
      exact later.bind ((ih.routine _ _).mono (by omega)) fun first =>
        later.bind (ih.methods.mono (by omega)) fun rest => later.pure _
  classDeclaration := by
    have h := suffices_combines fuel 0
    have later := suffices_combines fuel 32
    refine .succ (.bind_eats (h.expectName _) (.expectName _) fun name => ?_)
    exact later.bind later.superclassClause fun superclass => later.bind (later.expect _) fun _ =>
      later.bind (ih.methods.mono (by omega)) fun body => later.bind (later.expect _) fun _ =>
      later.pure _
  varDeclaration := by
    have h := suffices_combines fuel 0
    have later := suffices_combines fuel 32
    refine .succ (.bind_eats (h.expectName _) (.expectName _) fun name => ?_)
    exact later.bind (later.behind _ (ih.expression.mono (by omega))) fun initializer =>
      later.bind (later.expect _) fun _ => later.pure _
  forStatement := by
    have h := suffices_combines fuel 11
    have later := suffices_combines fuel 43
    refine .succ (h.bind (h.loopInitializer (ih.varDeclaration.mono (by omega)) ih.expression)
      fun initializer => ?_)
    refine h.bind (h.unlessSees _ _ (h.map some ih.expression)) fun condition => ?_
    refine .bind_eats (h.expect _) (.expect _) fun _ => ?_
    refine later.bind (later.unlessSees _ _ (later.map some (ih.expression.mono (by omega))))
      fun increment => ?_
    exact later.bind (later.checkBlock _) fun _ =>
      later.bind (ih.statement.mono (by omega)) fun body => later.pure _
  whileStatement := by
    have later := suffices_combines fuel 43
    refine .succ (.bind_eats ih.expression (expressionsEat fuel).expression fun condition => ?_)
    exact later.bind (later.checkBlock _) fun _ =>
      later.bind (ih.statement.mono (by omega)) fun body => later.pure _
  ifStatement := by
    have later := suffices_combines fuel 43
    refine .succ (.bind_eats ih.expression (expressionsEat fuel).expression fun condition => ?_)
    refine later.bind (later.checkBlock _) fun _ =>
      later.bind (ih.statement.mono (by omega)) fun thenBranch =>
      later.bind (later.accept _) fun otherwise => ?_
    cases otherwise with
    | none => exact later.pure _
    | some otherwise =>
      refine later.bind (later.sees _) fun isIf => ?_
      split
      · exact later.bind (ih.statement.mono (by omega)) fun elseBranch => later.pure _
      · exact later.bind (later.checkBlock _) fun _ =>
          later.bind (ih.statement.mono (by omega)) fun elseBranch => later.pure _
  returnStatement := by
    intro keyword
    have h := suffices_combines fuel 11
    exact .succ (h.bind (h.unlessSees _ _ (h.map some ih.expression)) fun value =>
      h.bind (h.expect _) fun _ => h.pure _)
  expressionStatement := by
    have h := suffices_combines fuel 11
    refine .succ (h.bind ih.expression fun value => h.bind (h.read _) fun interactive =>
      h.bind h.atEnd fun ended => ?_)
    split
    · exact h.pure _
    · exact h.bind (h.expect _) fun _ => h.pure _
  statement := by
    have later := suffices_combines fuel 44
    refine .succ (.accept (fun token => ?_) ih.expressionStatement)
    dsimp only
    split
    · exact later.withLoops _ (ih.forStatement.mono (by omega))
    · exact later.withLoops _ (ih.whileStatement.mono (by omega))
    · exact ih.ifStatement.mono (by omega)
    · exact (ih.returnStatement _).mono (by omega)
    · exact later.breakStatement _
    · exact later.bind (ih.block.mono (by omega)) fun body => later.pure _
  phrase := by
    have later := suffices_combines fuel 45
    refine .succ ?_
    refine .accept (fun keyword => ih.classDeclaration.mono (by omega)) ?_
    refine .accept (fun keyword => later.bind ((ih.routine _ _).mono (by omega)) fun d =>
      later.pure _) ?_
    exact .accept (fun keyword => ih.varDeclaration.mono (by omega)) ih.statement
  declaration := .succ (.recover ih.phrase)
  declarations := suffices_declarations ih.declaration ih.declarations
  block := by
    have h := suffices_combines fuel 16
    exact .succ (h.bind (ih.declarations _) fun body => h.bind (h.expect _) fun _ => h.pure _)

/-- **With any fuel every rule comes to an end on tokens that are few enough for it.** -/
theorem enough (fuel : Nat) : Enough fuel := by
  induction fuel with
  | zero => constructor <;> intros <;> exact ⟨tame_closed.outOfFuel, fun c hc => by omega⟩
  | succ fuel ih => exact enough_succ ih

/-- **Reading a program never runs out of fuel.** -/
theorem declarations_ends (c : Cursor) (inBlock : Bool) :
    declarations (enoughFuel c.ahead.length) inBlock c ≠ .exhausted :=
  ((enough _).declarations inBlock).ends c (by rw [enoughFuel]; omega)

end Lox.Grammar
