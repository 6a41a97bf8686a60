import Mathlib.Data.List.Nodup
import Lox.Proofs.Copies.Trees
import Lox.Proofs.Grammar.Exact

/-!
  Reading numbers every occurrence anew.

  A production draws numbers if what it reads has, besides the numbers of trees that were read before,
  only such as were given out meanwhile, and each of them once at most (`Draws`).  Some numbers are
  given out for nothing: those of declarations that are given up, and those of variables that are then
  assigned to.  Every rule draws numbers (`drawsNumbers`); so no two occurrences of a program have the
  same number, whether or not there are faults in it (`parse_numbered`).

  Numbers are counted, so that "once at most" and "none but these" are one inequality: for each number,
  how often it is in the tree is at most how often it was in the trees before and how often it was given
  out, which is once from the number at the start up to that at the end (`givenOut`).  Such inequalities
  add up along `bind`, in whatever order a tree holds its parts; the order does differ from that of the
  text for assignments and for counting loops (`countingLoop_numbers`).
-/

namespace Lox.Grammar

variable {α β : Type}

/-- How often a number is given out from the one up to the other: once, or not at all. -/
def givenOut (i j id : Nat) : Nat := if i ≤ id ∧ id < j then 1 else 0

/-- The numbers in what is read are those of earlier trees, and each number that was given out once at
    most. -/
def Draws (given : List Nat) (ids : α → List Nat) (p : Production α) : Prop :=
  ∀ c a d, p c = .done a d → c.nextId ≤ d.nextId ∧
    ∀ id, (ids a).count id ≤ given.count id + givenOut c.nextId d.nextId id

namespace Draws

variable {given : List Nat} {ids : α → List Nat} {ids' : β → List Nat}

/-- Without fuel nothing is read. -/
theorem outOfFuel : Draws given ids (.outOfFuel : Production α) := by
  intro c a d h
  cases h

/-- A tree that is made of earlier ones, without a number of its own. -/
theorem pure {a : α} (h : ∀ id, (ids a).count id ≤ given.count id) :
    Draws given ids (Pure.pure a : Production α) := by
  rintro c _ _ ⟨⟩
  exact ⟨Nat.le_refl _, fun id => Nat.le_add_right_of_le (h id)⟩

/-- The numbers of the first part count as read before for the second. -/
theorem bind {x : Production α} {f : α → Production β} (hx : Draws [] ids x)
    (hf : ∀ a, Draws (ids a ++ given) ids' (f a)) : Draws given ids' (x >>= f) := by
  intro c b e h
  obtain ⟨a, d, hxc, hfd⟩ := Action.bind_eq_done_iff.mp h
  obtain ⟨hle, hids⟩ := hx c a d hxc
  obtain ⟨hle', hids'⟩ := hf a d b e hfd
  refine ⟨Nat.le_trans hle hle', fun id => ?_⟩
  have h₁ := hids id
  have h₂ := hids' id
  rw [List.count_append] at h₂
  -- A number lies in one of the two stretches at most, since the second begins where the first ends.
  unfold givenOut at *
  simp only [List.count_nil] at h₁
  split_ifs at * <;> omega

/-- Nothing was read before. -/
theorem first {x : Production α} {f : α → Production β} (hx : Draws [] ids x)
    (hf : ∀ a, Draws (ids a) ids' (f a)) : Draws [] ids' (x >>= f) :=
  bind hx fun a => by
    rw [List.append_nil]
    exact hf a

/-- More may have been read before. -/
theorem mono {given' : List Nat} {p : Production α} (h : Draws given ids p)
    (hg : ∀ id, given.count id ≤ given'.count id) : Draws given' ids p := by
  intro c a d hp
  obtain ⟨hle, hids⟩ := h c a d hp
  exact ⟨hle, fun id => Nat.le_trans (hids id) (Nat.add_le_add_right (hg id) _)⟩

/-- What holds no occurrence has no numbers. -/
theorem of_tame {p : Production α} (h : Tame p) : Draws given (fun _ => []) p := by
  intro c a d hp
  exact ⟨(h c d (by rw [hp]; rfl)).nextId, fun id => by simp⟩

/-- Behind a part without occurrences. -/
theorem skip {x : Production α} {f : α → Production β} (hx : Tame x)
    (hf : ∀ a, Draws given ids' (f a)) : Draws given ids' (x >>= f) :=
  bind (of_tame hx) hf

/-- What is made of a tree has no other numbers than the tree. -/
theorem map {x : Production α} {f : α → β} (hx : Draws [] ids x)
    (hf : ∀ a id, (ids' (f a)).count id ≤ (ids a).count id) : Draws [] ids' (f <$> x) := by
  rw [map_eq_pure_bind]
  exact bind hx fun a => pure fun id => by simpa using hf a id

/-- Where a production fails nothing is read. -/
theorem failHere (fault : SyntacticFault) : Draws given ids (failHere fault : Production α) := by
  rintro c a d h
  cases h

/-- Behind a token that may be read. -/
theorem accept {fits : TokenKind → Bool} {f : Option Token → Production β}
    (hsome : ∀ t, Draws given ids' (f (some t))) (hnone : Draws given ids' (f none)) :
    Draws given ids' (Grammar.acceptWhere fits >>= f) :=
  skip (tame_closed.acceptWhere fits) fun t => by
    cases t with
    | some t => exact hsome t
    | none => exact hnone

/-- The number of a new occurrence is given out once. -/
theorem freshRef (name : Token) : Draws [] (fun ref => [ref.id]) (freshRef name) := by
  rintro c _ _ ⟨⟩
  refine ⟨Nat.le_succ _, fun id => ?_⟩
  simp only [List.count_cons, List.count_nil, beq_iff_eq, givenOut]
  split_ifs <;> omega

/-- What is left out has no numbers but earlier ones. -/
theorem unlessSees {kind : TokenKind} {default : α} {x : Production α}
    (hdefault : ∀ id, (ids default).count id ≤ given.count id) (hx : Draws given ids x) :
    Draws given ids (unlessSees kind default x) := by
  refine skip (tame_closed.sees kind) fun seen => ?_
  split
  · exact pure hdefault
  · exact hx

/-- What may be read behind a token has the numbers that it has. -/
theorem behind {kind : TokenKind} {x : Production α} {ids' : Option α → List Nat}
    (hx : Draws [] ids x) (hsome : ∀ a, ids' (some a) = ids a) (hnone : ids' none = []) :
    Draws [] ids' (behind kind x) :=
  accept (fun _ => map hx fun a id => Nat.le_of_eq (by rw [hsome])) (pure fun id => by simp [hnone])

/-- Numbers that were given out in vain are not used again. -/
theorem recover {x : Production α} {ids' : Option α → List Nat} (ht : Tame x) (hx : Draws [] ids x)
    (hsome : ∀ a, ids' (some a) = ids a) (hnone : ids' none = []) :
    Draws [] ids' (.recover (some <$> x) resume) := by
  intro c a d h
  refine ⟨(tame_closed.recover ht c d (by rw [h]; rfl)).nextId, fun id => ?_⟩
  unfold Action.recover at h
  have hmap : Draws [] ids' (some <$> x) := map hx fun a id => Nat.le_of_eq (by rw [hsome])
  cases hrun : (some <$> x) c with
  | done b e =>
    rw [hrun] at h
    cases h
    exact (hmap c _ _ hrun).2 id
  | failed p e =>
    rw [hrun] at h
    cases h
    simp [hnone]
  | exhausted =>
    rw [hrun] at h
    cases h

/-- The depth of loops has nothing to do with numbers. -/
theorem withLoops {depth : Nat → Nat} {x : Production α} (hx : Draws given ids x) :
    Draws given ids (withLoops depth x) := by
  intro c a d h
  have hinner := hx { c with loopDepth := depth c.loopDepth }
  unfold Grammar.withLoops Action.keeping at h
  rw [Action.bind_of_done (show Action.update _ c = .done () { c with loopDepth := depth c.loopDepth }
    from rfl)] at h
  generalize x { c with loopDepth := depth c.loopDepth } = ending at h hinner
  cases ending with
  | done b e =>
    cases h
    exact hinner _ e rfl
  | failed p e => cases h
  | exhausted => cases h

/-- An assignment has the numbers of its value, and one of its own. -/
theorem assignmentTo {target : Expr} {right : Production Expr} (hr : Draws [] Expr.numbers right) :
    Draws target.numbers Expr.numbers (assignmentTo target right) := by
  refine accept (fun equals => bind hr fun value => ?_) (pure fun _ => Nat.le_refl _)
  split
  · rename_i assign ha
    unfold assignment? at ha
    split at ha
    · cases ha
      refine bind (freshRef _) fun ref => pure fun id => ?_
      simp only [Expr.numbers, List.count_append]
      omega
    · cases ha
      refine pure fun id => ?_
      simp only [Expr.numbers, List.count_append]
      omega
    · cases ha
  · refine skip (tame_closed.report _ _) fun _ => pure fun id => ?_
    rw [List.count_append]
    omega

/-- The condition was read before its branches. -/
theorem choiceBy {condition : Expr} {branch : Production Expr}
    (hb : Draws [] Expr.numbers branch) :
    Draws condition.numbers Expr.numbers (choiceBy condition branch) := by
  refine accept (fun _ => bind hb fun t => skip (tame_closed.expect _) fun _ => bind hb fun e =>
    pure fun id => ?_) (pure fun _ => Nat.le_refl _)
  simp only [Expr.numbers, List.count_append]
  omega

/-- There is no occurrence in a `break`, whether or not it is reported. -/
theorem breakStatement (keyword : Token) : Draws [] Stmt.numbers (breakStatement keyword) := by
  have close : Draws [] Stmt.numbers
      (Grammar.expect .breakEnd >>= fun _ => Pure.pure (Stmt.breakLoop keyword)) :=
    skip (tame_closed.expect _) fun _ => pure fun _ => Nat.le_refl _
  refine skip (tame_closed.read _) fun depth => ?_
  split
  · exact skip (tame_closed.report _ _) fun _ => close
  · exact close

/-- The numbers of a declaration or of an expression, if there is one. -/
theorem loopInitializer {varDecl : Production Stmt} {value : Production Expr}
    (hd : Draws [] Stmt.numbers varDecl) (hv : Draws [] Expr.numbers value) :
    Draws [] elseNumbers (loopInitializer varDecl value) := by
  refine accept (fun _ => pure fun _ => Nat.le_refl _) ?_
  refine accept (fun _ => map hd fun _ _ => Nat.le_refl _) ?_
  refine bind hv fun e => skip (tame_closed.expect _) fun _ => pure fun id => ?_
  simp [elseNumbers, Stmt.numbers]

end Draws

/-- The operators of the level keep the numbers of their sides. -/
def Level.KeepsNumbers (level : Level) : Prop :=
  ∀ l op r, (level.build l op r).numbers = l.numbers ++ r.numbers

/-- The trees of all levels of operators hold their sides from left to right. -/
theorem levels_keepNumbers : ∀ level ∈ levels, Level.KeepsNumbers level := by
  simp [levels, levels.marks, Level.KeepsNumbers, Expr.numbers]

/-- The increment of a counting loop was read before its body. -/
theorem countingLoop_numbers (i : Option Stmt) (c n : Option Expr) (b : Stmt) (id : Nat) :
    (countingLoop i c n b).numbers.count id =
      (elseNumbers i ++ (optionalNumbers c ++ (optionalNumbers n ++ b.numbers))).count id := by
  cases i <;> cases c <;> cases n <;>
    simp [countingLoop, Stmt.numbers, stmtsNumbers, Expr.numbers, elseNumbers, optionalNumbers] <;> omega

/-! ## The rules

  A production draws the numbers that it hands out in the order of reading, and its tree holds the same numbers
  in whatever order.  So the statement counts how often a number occurs, and does not compare lists. -/

/-- With so much fuel every rule draws numbers. -/
structure DrawsNumbers (fuel : Nat) : Prop where
  expression : Draws [] Expr.numbers (expression fuel)
  ternary : Draws [] Expr.numbers (ternary fuel)
  operators : ∀ levels, (∀ level ∈ levels, Level.KeepsNumbers level) →
    Draws [] Expr.numbers (operators fuel levels)
  moreOperators : ∀ level tighter left, Level.KeepsNumbers level →
    (∀ level ∈ tighter, Level.KeepsNumbers level) →
    Draws left.numbers Expr.numbers (moreOperators fuel level tighter left)
  unary : Draws [] Expr.numbers (unary fuel)
  calls : ∀ callee, Draws callee.numbers Expr.numbers (calls fuel callee)
  arguments : Draws [] exprsNumbers (arguments fuel)
  primary : Draws [] Expr.numbers (primary fuel)
  routine : ∀ kind keyword, Draws [] FunctionDecl.numbers (routine fuel kind keyword)
  methods : Draws [] methodsNumbers (methods fuel)
  declaration : Draws [] elseNumbers (declaration fuel)
  phrase : Draws [] Stmt.numbers (phrase fuel)
  classDeclaration : Draws [] Stmt.numbers (classDeclaration fuel)
  varDeclaration : Draws [] Stmt.numbers (varDeclaration fuel)
  statement : Draws [] Stmt.numbers (statement fuel)
  forStatement : Draws [] Stmt.numbers (forStatement fuel)
  whileStatement : Draws [] Stmt.numbers (whileStatement fuel)
  ifStatement : Draws [] Stmt.numbers (ifStatement fuel)
  returnStatement : ∀ keyword, Draws [] Stmt.numbers (returnStatement fuel keyword)
  block : Draws [] stmtsNumbers (block fuel)
  declarations : ∀ inBlock, Draws [] stmtsNumbers (declarations fuel inBlock)
  expressionStatement : Draws [] Stmt.numbers (expressionStatement fuel)

namespace Draws

variable {fuel : Nat}

/-- An expression that may be left out. -/
theorem optional (ih : DrawsNumbers fuel) (kind : TokenKind) :
    Draws [] optionalNumbers (Grammar.unlessSees kind none (some <$> expression fuel)) :=
  unlessSees (fun _ => Nat.le_refl _) (map ih.expression fun _ _ => Nat.le_refl _)

/-- The numbers of a tree are those of its parts, in any order. -/
theorem tree {a : β} (h : ∀ id, (ids' a).count id = given.count id) :
    Draws given ids' (Pure.pure a : Production β) :=
  pure fun id => Nat.le_of_eq (h id)

/-- The rules call one another only with less fuel. -/
theorem numbers_succ (ih : DrawsNumbers fuel) : DrawsNumbers (fuel + 1) where
  expression := first ih.ternary fun target => assignmentTo ih.expression
  ternary := first (ih.operators _ levels_keepNumbers) fun condition => choiceBy ih.ternary
  operators := by
    intro levels hlevels
    cases levels with
    | nil => exact ih.unary
    -- A level draws the numbers of its two sides, left before right.
    | cons level tighter =>
      have htighter : ∀ l ∈ tighter, Level.KeepsNumbers l :=
        fun l hl => hlevels l (List.mem_cons_of_mem _ hl)
      exact first (ih.operators _ htighter) fun left =>
        ih.moreOperators _ _ _ (hlevels level List.mem_cons_self) htighter
  moreOperators := by
    intro level tighter left hlevel htighter
    refine accept (fun operator => bind (ih.operators _ htighter) fun right => ?_)
      (tree fun _ => rfl)
    refine (ih.moreOperators _ _ _ hlevel htighter).mono fun id => ?_
    rw [hlevel, List.count_append, List.count_append]
    omega
  unary := by
    refine accept (fun operator => first ih.unary fun right => tree fun _ => rfl) ?_
    refine accept (fun keyword => first (ih.routine _ _) fun d => tree fun _ => rfl) ?_
    exact first ih.primary fun callee => ih.calls callee
  calls := by
    intro callee
    refine accept (fun _ => bind (unlessSees (fun _ => Nat.le_refl _) ih.arguments) fun given =>
      skip (tame_closed.expect _) fun paren => (ih.calls _).mono fun id => ?_) ?_
    · simp only [Expr.numbers, List.count_append]
      omega
    · exact accept (fun _ => skip (tame_closed.expectName _) fun name => ih.calls _)
        (tree fun _ => rfl)
  arguments := by
    refine first ih.expression fun e => accept (fun _ => bind ih.arguments fun rest => tree fun id => ?_)
      (tree fun id => ?_)
    · simp only [exprsNumbers, List.count_append]
      omega
    · simp [exprsNumbers]
  primary := by
    refine accept (fun _ => tree fun _ => rfl) ?_
    refine accept (fun _ => first (freshRef _) fun ref => tree fun _ => rfl) ?_
    refine accept (fun _ => first ih.expression fun e => skip (tame_closed.expect _) fun _ =>
      tree fun _ => rfl) ?_
    refine accept (fun _ => first (freshRef _) fun ref => tree fun _ => rfl) ?_
    exact accept (fun _ => skip (tame_closed.expect _) fun _ =>
      skip (tame_closed.expectName _) fun _ => first (freshRef _) fun ref => tree fun _ => rfl)
      (failHere _)
  routine := by
    intro kind keyword
    exact skip (tame_closed.routineName _) fun _ => skip (tame_closed.expect _) fun _ =>
      skip (tame_closed.unlessSees _ _ (tame_closed.parameters _)) fun _ =>
      skip (tame_closed.expect _) fun _ => skip (tame_closed.expect _) fun _ =>
      first (withLoops ih.block) fun body => tree fun _ => rfl
  methods := by
    refine skip (tame_closed.sees _) fun _ => skip tame_closed.atEnd fun _ => ?_
    split
    · exact tree fun _ => rfl
    · refine skip (tame_closed.require _ _) fun _ => first (ih.routine _ _) fun d =>
        bind ih.methods fun ds => tree fun id => ?_
      simp only [methodsNumbers, List.count_append]
      omega
  declaration := recover (tame fuel).phrase ih.phrase (fun _ => rfl) rfl
  phrase := by
    refine accept (fun _ => ih.classDeclaration) ?_
    refine accept (fun _ => first (ih.routine _ _) fun d => tree fun _ => rfl) ?_
    exact accept (fun _ => ih.varDeclaration) ih.statement
  classDeclaration := by
    have hsuperclass : Draws [] (fun ref : Option Ref => (ref.map Ref.id).toList) superclassClause :=
      behind (skip (tame_closed.expectName _) fun name => freshRef name) (fun _ => rfl) rfl
    refine skip (tame_closed.expectName _) fun _ => first hsuperclass fun superclass =>
      skip (tame_closed.expect _) fun _ => bind ih.methods fun ds =>
      skip (tame_closed.expect _) fun _ => tree fun id => ?_
    simp only [Stmt.numbers, List.count_append]
    omega
  varDeclaration :=
    skip (tame_closed.expectName _) fun _ =>
      first (behind ih.expression (fun _ => rfl) rfl) fun initializer =>
      skip (tame_closed.expect _) fun _ => tree fun _ => rfl
  statement := by
    refine accept (fun token => ?_) ih.expressionStatement
    dsimp only
    split
    · exact withLoops ih.forStatement
    · exact withLoops ih.whileStatement
    · exact ih.ifStatement
    · exact ih.returnStatement _
    · exact breakStatement _
    · exact first ih.block fun body => tree fun _ => rfl
  forStatement := by
    refine first (loopInitializer ih.varDeclaration ih.expression) fun i =>
      bind (optional ih _) fun c => skip (tame_closed.expect _) fun _ =>
      bind (optional ih _) fun n => skip (tame_closed.checkBlock _) fun _ =>
      bind ih.statement fun b => tree fun id => ?_
    -- The increment is read before the body, but stands behind it in the tree: the same numbers, in another
    -- order.
    rw [countingLoop_numbers]
    simp only [List.count_append]
    omega
  whileStatement := by
    refine first ih.expression fun c => skip (tame_closed.checkBlock _) fun _ =>
      bind ih.statement fun b => tree fun id => ?_
    simp only [Stmt.numbers, List.count_append]
    omega
  ifStatement := by
    refine first ih.expression fun c => skip (tame_closed.checkBlock _) fun _ =>
      bind ih.statement fun t => accept (fun _ => ?_) (tree fun id => ?_)
    · have hother : ∀ e : Stmt, ∀ id, (Stmt.ifElse c t (some e)).numbers.count id =
          (e.numbers ++ (t.numbers ++ c.numbers)).count id := by
        intro e id
        simp only [Stmt.numbers, elseNumbers, List.count_append]
        omega
      refine skip (tame_closed.sees _) fun isIf => ?_
      split
      · exact bind ih.statement fun e => tree (hother e)
      · exact skip (tame_closed.checkBlock _) fun _ => bind ih.statement fun e => tree (hother e)
    · simp only [Stmt.numbers, elseNumbers, List.count_append, List.count_nil]
      omega
  returnStatement := by
    intro keyword
    exact first (optional ih _) fun value => skip (tame_closed.expect _) fun _ => tree fun _ => rfl
  block := first (ih.declarations _) fun body => skip (tame_closed.expect _) fun _ =>
    tree fun _ => rfl
  declarations := by
    intro inBlock
    refine skip tame_closed.atEnd fun _ => skip (tame_closed.sees _) fun _ => ?_
    split
    · exact tree fun _ => rfl
    · refine first ih.declaration fun s => bind (ih.declarations _) fun ss => tree fun id => ?_
      cases s with
      | none => simp [elseNumbers]
      | some s =>
        simp only [Option.toList_some, List.singleton_append, stmtsNumbers, elseNumbers,
          List.count_append]
        omega
  expressionStatement := by
    refine first ih.expression fun e => skip (tame_closed.read _) fun _ =>
      skip tame_closed.atEnd fun _ => ?_
    split
    · exact tree fun _ => rfl
    · exact skip (tame_closed.expect _) fun _ => tree fun _ => rfl

end Draws

/-- **Every rule draws numbers.** -/
theorem drawsNumbers (fuel : Nat) : DrawsNumbers fuel := by
  induction fuel with
  | zero => constructor <;> intros <;> exact Draws.outOfFuel
  | succ fuel ih => exact Draws.numbers_succ ih

/-- **No two occurrences of a program have the same number**, and each number is one that was given out
    while the program was read. -/
theorem parse_numbered (tokens : List Token) (interactive : Bool) (firstId : Nat) :
    Numbered (stmtsNumbers (parse tokens interactive firstId).program) firstId
      (parse tokens interactive firstId).nextId := by
  have hle := parse_nextId_le tokens interactive firstId
  have hdraws :=
    (drawsNumbers (enoughFuel (Cursor.start tokens interactive firstId).ahead.length)).declarations false
      (Cursor.start tokens interactive firstId)
  rw [parse] at hle ⊢
  generalize declarations _ false (Cursor.start tokens interactive firstId) = ending at hle hdraws ⊢
  cases ending with
  | done program d =>
    obtain ⟨-, hids⟩ := hdraws _ _ rfl
    have hcount : ∀ id, (stmtsNumbers program).count id ≤ givenOut firstId d.nextId id := fun id => by
      have hid := hids id
      rwa [List.count_nil, Nat.zero_add] at hid
    refine ⟨hle, List.nodup_iff_count_le_one.mpr fun id => ?_, fun id hid => ?_⟩
    · refine Nat.le_trans (hcount id) ?_
      unfold givenOut
      split_ifs <;> omega
    · have hpos : 0 < (stmtsNumbers program).count id := List.count_pos_iff.mpr hid
      have hone := hcount id
      -- A number that is there has been counted, so it was given out.
      unfold givenOut at hone
      split at hone
      · rename_i h
        exact h
      · omega
  | failed p d => exact .nil hle
  | exhausted => exact .nil (Nat.le_refl _)

end Lox.Grammar
