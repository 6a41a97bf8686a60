import Lox.Proofs.Grammar.Reads
import Lox.Proofs.Reading.Demands

/-!
  Where a `break` may stand.

  The rules that are being read at a call show how many loops of the innermost function body are being read
  there (`loopsRead`): a loop adds one for its body, and a function starts again from none.  The reader does not
  know the rules around it, but counts the loops in its cursor.

  * At every call that is reached its count is the number of loops that are being read
    (`Call.Reaches.loopDepth`), whatever has failed before, since every reading leaves the count as it found it.
  * A call tells of a stray `break` if and only if it reads a statement, the token at the front is `break`, and
    the count is zero (`Call.does_stray_iff`).  That only this rule tells of it is known from the recipes; for
    the rule itself the recipe is gone through.
  * With `Call.mem_diagnostics_iff` both make a statement about the problems of a whole program.

  So a `break` is told to be stray if and only if no loop is being read around it
  (`breaks_are_checked_exactly`).  Stray or not, it is a statement of the tree if the semicolon follows.
-/

namespace Lox.Grammar

/-! ## Loops that are being read -/

/-- How many `for` and `while` statements are being read within the innermost function body that is
    being read, or within the whole program if there is none.  Of the rules that are being read the
    innermost one stands first. -/
def loopsRead : List Rule → Nat
  | [] => 0
  | .block :: .routine .. :: _ => 0
  | .forStatement :: outer | .whileStatement :: outer => loopsRead outer + 1
  | _ :: outer => loopsRead outer

/-- The number of loops at a call, from the one at its caller. -/
theorem loopsRead_cons (called caller : Rule) (outer : List Rule) :
    loopsRead (called :: caller :: outer) = caller.loopsAround called (loopsRead (caller :: outer)) := by
  cases called with
  | block => cases caller <;> rfl
  | _ => rfl

namespace Call

variable {κ μ : Call} {path : List Rule}

/-- The count of a call that is made is that of its caller, changed as the rules say. -/
theorem Makes.loopDepth (h : κ.Makes μ) :
    μ.cursor.loopDepth = κ.rule.loopsAround μ.rule κ.cursor.loopDepth := by
  cases h with
  | call h =>
    obtain ⟨change, hchange, hloops⟩ := h.obeys (M := fun _ => True) (fun _ _ => trivial) trivial
    exact hloops.trans (hchange _)

/-- The innermost of the rules that are being read is that of the call. -/
theorem Reaches.path_eq (h : κ.Reaches path μ) : ∃ outer, path = μ.rule :: outer := by
  cases h with
  | start => exact ⟨[], rfl⟩
  | call _ _ => exact ⟨_, rfl⟩

/-- **The count of loops is the number of loops that are being read.** -/
theorem Reaches.loopDepth (h : κ.Reaches path μ) (hκ : κ.cursor.loopDepth = loopsRead [κ.rule]) :
    μ.cursor.loopDepth = loopsRead path := by
  induction h with
  | start => exact hκ
  | call hreaches hmakes ih =>
    obtain ⟨outer, rfl⟩ := hreaches.path_eq
    rw [loopsRead_cons, hmakes.loopDepth, ih]

end Call

/-! ## Statements at a `break` -/

/-- A token that fits is taken. -/
theorem acceptWhere_cons {fits : TokenKind → Bool} {c : Cursor} {t : Token} {rest : List Token}
    (hc : c.ahead = t :: rest) (ht : fits t.kind = true) :
    acceptWhere fits c = .done (some t) { c with ahead := rest } := by
  rw [acceptWhere, hc]
  exact if_pos ht

/-- A token that is taken was there, and fits. -/
theorem acceptWhere_some {fits : TokenKind → Bool} {c d : Cursor} {t : Token}
    (h : acceptWhere fits c = .done (some t) d) :
    ∃ rest, c.ahead = t :: rest ∧ fits t.kind = true ∧ d = { c with ahead := rest } := by
  rw [acceptWhere] at h
  split at h
  · split at h
    · cases h
      exact ⟨_, ‹_›, ‹_›, rfl⟩
    · cases h
  · cases h

/-- A token that has to be there, and is. -/
theorem require_cons {kind : TokenKind} {fault : SyntacticFault} {c : Cursor} {t : Token}
    {rest : List Token} (hc : c.ahead = t :: rest) (ht : t.kind = kind) :
    require kind fault c = .done t { c with ahead := rest } := by
  rw [require, accept, Action.bind_of_done (acceptWhere_cons hc (decide_eq_true ht))]
  rfl

/-- A token that has to be there, and is missing. -/
theorem require_pass {kind : TokenKind} {fault : SyntacticFault} {c : Cursor}
    (h : ¬ c.stand.Sees kind) : require kind fault c = .failed (.syntactic c.current fault) c := by
  have hpass : acceptWhere (fun k => decide (k = kind)) c = .done none c := by
    refine acceptWhere_pass fun t ht => decide_eq_false fun hk => h ?_
    obtain ⟨ts, hts⟩ := List.head?_eq_some_iff.mp ht
    exact ⟨t, ts, hts, hk⟩
  rw [require, accept, Action.bind_of_done hpass]
  rfl

/-- The cursor behind a `break`, whose token may have been reported. -/
def Cursor.behindBreak (c : Cursor) (keyword : Token) (rest : List Token) : Cursor :=
  { c with
    ahead := rest
    problems := if c.loopDepth = 0 then c.problems.push (.syntactic keyword .strayBreak) else c.problems }

/-- A statement at a `break` is a `break` statement. -/
theorem statement_at_break {n : Nat} {c : Cursor} {keyword : Token} {rest : List Token}
    (hc : c.ahead = keyword :: rest) (hk : keyword.IsKeyword .breakKw) :
    statement (n + 1) c =
      (expect .breakEnd >>= fun _ => pure (.breakLoop keyword)) (c.behindBreak keyword rest) := by
  have hfits : startsStatement keyword.kind = true := by rw [hk]; rfl
  rw [statement, Action.bind_of_done (acceptWhere_cons hc hfits)]
  dsimp only
  rw [hk]
  unfold Cursor.behindBreak breakStatement
  by_cases hloops : c.loopDepth = 0
  · simp [bind, Action.read, hloops, report, Action.update, Cursor.report]
  · simp [bind, Action.read, hloops]

/-- Asking for the semicolon tells of no stray `break`. -/
theorem Recipe.not_stray_of_end {ρ : Reading} (hρ : ∀ r, Tame (ρ r)) {keyword token : Token}
    {c d : Cursor} : ¬ Does ρ (expect .breakEnd >>= fun _ => Pure.pure (Stmt.breakLoop keyword)) c
      (.tell (.syntactic token .strayBreak)) d := by
  intro h
  let D : Demand := ⟨fun _ => True, fun _ _ => True, fun _ fault => fault ≠ .strayBreak⟩
  have hmeets : (expect .breakEnd >>= fun _ => Pure.pure (Stmt.breakLoop keyword)).Meets D id :=
    .bind (.expect (fun _ _ _ hf => hf) _) fun _ => .pure _
  obtain ⟨_, _, heq, hfault⟩ := h.meets hmeets hρ (fun _ _ => trivial) trivial rfl
  cases heq
  exact hfault rfl

/-- A statement tells of a stray `break` where it begins with one and no loop is counted. -/
theorem Recipe.stray_of_statement {ρ : Reading} (hρ : ∀ r, Tame (ρ r)) {token : Token} {c d : Cursor}
    (h : Does ρ (ofRule .statement) c (.tell (.syntactic token .strayBreak)) d) :
    ∃ rest, c.ahead = token :: rest ∧ token.IsKeyword .breakKw ∧ c.loopDepth = 0 := by
  obtain h | ⟨t, e, hread, h⟩ := h
  · exact absurd h.1 nofun
  -- No other branch of the rule tells of a `break`, so that the deed can only come from this one.
  cases t with
  | none => exact absurd h.1 nofun
  | some t =>
    obtain ⟨rest, hc, -, rfl⟩ := acceptWhere_some hread
    dsimp only at h
    split at h
    · exact absurd h.1 nofun
    · exact absurd h.1 nofun
    · exact absurd h.1 nofun
    · exact absurd h.1 nofun
    · rename_i hk
      obtain h | ⟨loops, e, ⟨⟩, h⟩ := h
      · exact absurd h.1 nofun
      dsimp only at h
      split at h
      · rename_i hloops
        obtain ⟨heq, -⟩ | ⟨_, e, -, h⟩ := h
        · cases heq
          exact ⟨rest, hc, hk, hloops⟩
        · exact absurd h (not_stray_of_end hρ)
      · exact absurd h (not_stray_of_end hρ)
    · obtain h | ⟨_, e, -, h⟩ := h
      · exact absurd h.1 nofun
      · exact h.elim

/-- A `break` is told to be stray where a statement begins with it and no loop is counted. -/
theorem Call.does_stray_iff {κ : Call} {token : Token} :
    (∃ d, κ.Does (.tell (.syntactic token .strayBreak)) d) ↔
      ∃ n c rest, κ = ⟨n + 1, .statement, c⟩ ∧ c.ahead = token :: rest ∧ token.IsKeyword .breakKw ∧
        c.loopDepth = 0 := by
  constructor
  -- The recipes of all other rules obey a demand that excludes it.
  · rintro ⟨d, h⟩
    have hrule : κ.rule = .statement := by
      obtain ⟨_, _, heq, -, hstray⟩ := h.obeys (M := fun _ => True) (fun _ _ => trivial) trivial
      cases heq
      exact hstray rfl
    cases h with
    | @by_recipe n r c _ _ h =>
      subst hrule
      obtain ⟨rest, hbreak⟩ := Recipe.stray_of_statement (fun q => q.tame n) h
      exact ⟨n, c, rest, rfl, hbreak⟩
  · rintro ⟨n, c, rest, rfl, hc, hk, hloops⟩
    have hfits : startsStatement token.kind = true := by rw [hk]; rfl
    refine ⟨{ c with ahead := rest }, .by_recipe (.inr ⟨_, _, acceptWhere_cons hc hfits, ?_⟩)⟩
    dsimp only
    rw [hk]
    refine .inr ⟨c.loopDepth, _, rfl, ?_⟩
    dsimp only
    rw [if_pos hloops]
    exact .inl ⟨rfl, rfl⟩

/-! ## All breaks of a program

  How many loops are around a call is read off the path that leads to it. -/

/-- **Every `break` is checked exactly.**  Every reading leaves the count of loops as it found it,
    however it ends.  Wherever the reading of a program, be it behind failures, comes to a statement at
    a `break`, this is reported for the token of the `break` if and only if no loop is being read inside
    the innermost function body that is being read; and with a semicolon behind it the statement is a
    `break` all the same.  The diagnostics tell of exactly the stray ones. -/
theorem breaks_are_checked_exactly (tokens : List Token) (interactive : Bool) (firstId : Nat) :
    (∀ (r : Rule) n c d, (r.read n c).state? = some d → d.loopDepth = c.loopDepth) ∧
    (∀ path n c keyword rest,
      (Call.program tokens interactive firstId).Reaches path ⟨n, .statement, c⟩ →
      c.ahead = keyword :: rest → keyword.IsKeyword .breakKw →
      let problems :=
        if loopsRead path = 0 then c.problems.push (.syntactic keyword .strayBreak) else c.problems
      (∀ stop behind, rest = stop :: behind → stop.IsMark .semicolon →
        statement n c =
          .done (.breakLoop keyword) { c with ahead := behind, problems := problems }) ∧
      ((∀ stop ∈ rest.head?, ¬ stop.IsMark .semicolon) →
        statement n c = .failed (.syntactic (rest.headD c.finish) (.missing .breakEnd))
          { c with ahead := rest, problems := problems })) ∧
    (∀ token, .syntactic token .strayBreak ∈ (parse tokens interactive firstId).diagnostics ↔
      ∃ path n c rest, (Call.program tokens interactive firstId).Reaches path ⟨n, .statement, c⟩ ∧
        c.ahead = token :: rest ∧ token.IsKeyword .breakKw ∧ loopsRead path = 0) ∧
    SyntacticFault.strayBreak.message = "A break statement is not allowed outside of a loop." := by
  -- The depth that a call finds is the number of loops on the way to it.
  have hcount : ∀ path μ, (Call.program tokens interactive firstId).Reaches path μ →
      μ.cursor.loopDepth = loopsRead path := fun path μ h => h.loopDepth rfl
  refine ⟨fun r n c d h => (r.tame n c d h).loopDepth, ?_, fun token => ?_, rfl⟩
  · intro path n c keyword rest hreaches hc hk problems
    obtain ⟨n, rfl⟩ := Nat.exists_eq_add_one_of_ne_zero (Nat.pos_iff_ne_zero.mp hreaches.fuel_pos)
    have hloops : c.loopDepth = loopsRead path := hcount _ _ hreaches
    have hrun : statement (n + 1) c = (expect .breakEnd >>= fun _ => pure (.breakLoop keyword))
        { c with ahead := rest, problems := problems } := by
      rw [statement_at_break hc hk, Cursor.behindBreak, hloops]
    refine ⟨?_, fun hstop => ?_⟩
    · rintro stop behind rfl hstop
      have hread : expect .breakEnd { c with ahead := stop :: behind, problems := problems } =
          .done stop { c with ahead := behind, problems := problems } := require_cons rfl hstop
      rw [hrun, Action.bind_of_done hread]
      rfl
    · have hunseen : ¬ Stand.Sees (rest, c.nextId) (.mark .semicolon) := by
        rintro ⟨stop, behind, rfl, hstop'⟩
        exact hstop stop rfl hstop'
      have hread : expect .breakEnd { c with ahead := rest, problems := problems } =
          .failed (.syntactic (rest.headD c.finish) (.missing .breakEnd))
            { c with ahead := rest, problems := problems } := require_pass hunseen
      rw [hrun, Action.bind_of_failed hread]
  · rw [Call.mem_diagnostics_iff]
    constructor
    · rintro ⟨path, μ, d, hreaches, htells⟩
      obtain ⟨n, c, rest, rfl, hc, hk, hloops⟩ := Call.does_stray_iff.mp ⟨d, htells⟩
      exact ⟨path, n + 1, c, rest, hreaches, hc, hk, (hcount _ _ hreaches).symm.trans hloops⟩
    · rintro ⟨path, n, c, rest, hreaches, hc, hk, hloops⟩
      obtain ⟨n, rfl⟩ := Nat.exists_eq_add_one_of_ne_zero (Nat.pos_iff_ne_zero.mp hreaches.fuel_pos)
      obtain ⟨d, htells⟩ := Call.does_stray_iff.mpr
        ⟨n, c, rest, rfl, hc, hk, (hcount _ _ hreaches).trans hloops⟩
      exact ⟨path, _, d, hreaches, htells⟩

/-- The `break` stands in the body of the loop. -/
theorem break_in_loop_is_checked :
    let stop : Token := ⟨.keyword .breakKw, "break", 1⟩
    let body : List Token := [stop, ⟨.mark .semicolon, ";", 1⟩, ⟨.mark .rightBrace, "\x7d", 1⟩]
    let tokens : List Token := [⟨.keyword .whileKw, "while", 1⟩, ⟨.identifier, "x", 1⟩,
      ⟨.mark .leftBrace, "\x7b", 1⟩] ++ body ++ [.finish 1]
    let path : List Rule := [.statement, .phrase, .declaration, .declarations true, .block, .statement,
      .whileStatement, .statement, .phrase, .declaration, .declarations false]
    let c : Cursor := ⟨body, .finish 1, false, 1, 1, #[]⟩
    (Call.program tokens false 0).Reaches path ⟨214, .statement, c⟩ ∧ loopsRead path = 1 ∧
      statement 214 c = .done (.breakLoop stop) { c with ahead := body.drop 2 } := by
  intro stop body tokens path c
  -- The statement is called behind the keywords that a declaration may start with.
  have loop : (Call.program tokens false 0).Reaches (path.drop 6) ⟨220, .whileStatement,
      { Cursor.start tokens false 0 with ahead := (tokens.take 6).tail, loopDepth := 1 }⟩ := by
    have h : (Call.program tokens false 0).Reaches [.declarations false] _ := .start
    replace h := h.call (.call (q := .declaration)
      (.by_recipe (.inr ⟨_, _, rfl, .inr ⟨_, _, rfl, .inl ⟨rfl, rfl⟩⟩⟩)))
    replace h := h.call (.call (q := .phrase) (.by_recipe ⟨rfl, rfl⟩))
    replace h := h.call (.call (q := .statement)
      (.by_recipe (.inr ⟨_, _, rfl, .inr ⟨_, _, rfl, .inr ⟨_, _, rfl, ⟨rfl, rfl⟩⟩⟩⟩)))
    exact h.call (.call (.by_recipe (.inr ⟨_, _, rfl, ⟨rfl, rfl⟩⟩)))
  have inside : (Call.program tokens false 0).Reaches path ⟨214, .statement, c⟩ := by
    have h := loop.call (.call (q := .statement)
      (.by_recipe (.inr ⟨_, _, rfl, .inr ⟨_, _, rfl, .inl ⟨rfl, rfl⟩⟩⟩)))
    replace h := h.call (.call (q := .block) (.by_recipe (.inr ⟨_, _, rfl, .inl ⟨rfl, rfl⟩⟩)))
    replace h := h.call (.call (q := .declarations true) (.by_recipe (.inl ⟨rfl, rfl⟩)))
    replace h := h.call (.call (q := .declaration)
      (.by_recipe (.inr ⟨_, _, rfl, .inr ⟨_, _, rfl, .inl ⟨rfl, rfl⟩⟩⟩)))
    replace h := h.call (.call (q := .phrase) (.by_recipe ⟨rfl, rfl⟩))
    exact h.call (.call (q := .statement)
      (.by_recipe (.inr ⟨_, _, rfl, .inr ⟨_, _, rfl, .inr ⟨_, _, rfl, ⟨rfl, rfl⟩⟩⟩⟩)))
  have hchecked := (breaks_are_checked_exactly tokens false 0).2.1 path 214 c stop _ inside rfl rfl
  exact ⟨inside, rfl, hchecked.1 _ _ rfl rfl⟩

end Lox.Grammar
