import Lox.Grammar.Program
import Lox.Proofs.Copies.Agrees
import Lox.Proofs.Copies.Trees

/-!
  Reading copies.

  Tokens that stand for each other are read in the same way, and the program that is read from the one
  list is a copy of that from the other (`parse_copies`).  The numbers that the occurrences get may be
  higher on the one side, but always by the same: two cursors are abreast if what is ahead of them
  stands for each other, what they have reported is the same, and the next number of the one is that of
  the other and `k` more.

  The grammar decides by the kinds of tokens, which are the same on both sides.  So the proof follows the
  productions as they are written: the small ones first (`ReadsAlike`), then the functions of the grammar
  (`ReadsCopies`), each by those with less fuel.  A failure is recovered from at the same place, because
  the boundary behind it is found by kinds as well (`ReadsAlike.nextBoundary`).

  That a number stands for one other, and which, is not known here before it has been given.  `Abreast`
  therefore asks it of all numbers that are still to come (`upcoming`).
-/

namespace Lox.Grammar

variable {K : Likeness} {k : Nat}

/-- The cursors have come equally far in tokens that stand for each other. -/
structure Abreast (K : Likeness) (k : Nat) (c d : Cursor) : Prop where
  ahead : List.Forall₂ K.token c.ahead d.ahead
  finish : K.token c.finish d.finish
  interactive : d.interactive = c.interactive
  loopDepth : d.loopDepth = c.loopDepth
  nextId : d.nextId = c.nextId + k
  /-- The numbers that are given from here on stand for each other. -/
  upcoming : ∀ i, c.nextId ≤ i → K.number i (i + k)
  problems : List.Forall₂ (Diagnostic.Like K) c.problems.toList d.problems.toList

/-- From cursors that are abreast the productions read what is related. -/
abbrev ReadsAlike {α β : Type} (K : Likeness) (k : Nat) (Q : α → β → Prop) (p : Production α)
    (q : Production β) : Prop :=
  Action.Agrees False (Abreast K k) (Diagnostic.Like K) Q p q

namespace Abreast

variable {c d : Cursor} (h : Abreast K k c d)
include h

/-- The tokens at the front stand for each other, or the ends do. -/
theorem current : K.token c.current d.current := by
  have hahead := h.ahead
  unfold Cursor.current
  generalize c.ahead = ts, d.ahead = ts' at hahead
  cases hahead with
  | nil => exact h.finish
  | cons ht _ => exact ht

/-- A kind of token is at the front on both sides or on neither. -/
theorem sees (kind : TokenKind) : c.sees kind = d.sees kind := by
  have hahead := h.ahead
  unfold Cursor.sees
  generalize c.ahead = ts, d.ahead = ts' at hahead
  cases hahead with
  | nil => rfl
  | cons ht _ => simp only [K.kind ht]

/-- Both cursors are at their end or neither is. -/
theorem atEnd : c.atEnd = d.atEnd := by
  have hahead := h.ahead
  unfold Cursor.atEnd
  generalize c.ahead = ts, d.ahead = ts' at hahead
  cases hahead with
  | nil => rfl
  | cons _ _ => rfl

/-- What is reported alike keeps the cursors abreast. -/
theorem report {p p' : Diagnostic} (hp : p.Like K p') : Abreast K k (c.report p) (d.report p') := by
  refine { h with problems := ?_ }
  rw [Cursor.report, Cursor.report, Array.toList_push, Array.toList_push]
  exact List.rel_append h.problems (.cons hp .nil)

end Abreast

/-! ## The small productions

  Two readers stand before tokens that correspond.  A step that looks at tokens sees the same kinds, and a step
  that reports does so at tokens that correspond. -/

namespace ReadsAlike

variable {α β γ δ : Type} {P : α → β → Prop}

/-- The token at the front is read on both sides or on neither. -/
theorem acceptWhere (fits : TokenKind → Bool) :
    ReadsAlike K k (Option.Rel K.token) (acceptWhere fits) (acceptWhere fits) := by
  rintro ⟨ts, f, i, l, n, ps⟩ ⟨ts', f', i', l', n', ps'⟩ ⟨hahead, hfinish, hi, hl, hn, hup, hps⟩
  cases hahead with
  | nil => exact .done .none ⟨.nil, hfinish, hi, hl, hn, hup, hps⟩
  | @cons t t' ts ts' ht hts =>
    simp only [Grammar.acceptWhere, K.kind ht]
    split
    · exact .done (.some ht) ⟨hts, hfinish, hi, hl, hn, hup, hps⟩
    · exact .done .none ⟨.cons ht hts, hfinish, hi, hl, hn, hup, hps⟩

/-- Behind a token that may be read, it was read on both sides or on neither. -/
theorem accept {fits : TokenKind → Bool} {f : Option Token → Production α}
    {g : Option Token → Production β}
    (hsome : ∀ t t', K.token t t' → ReadsAlike K k P (f (some t)) (g (some t')))
    (hnone : ReadsAlike K k P (f none) (g none)) :
    ReadsAlike K k P (Grammar.acceptWhere fits >>= f) (Grammar.acceptWhere fits >>= g) := by
  refine .bind (acceptWhere fits) fun t t' ht => ?_
  cases ht with
  | some ht => exact hsome _ _ ht
  | none => exact hnone

/-- Looking at the front. -/
theorem sees (kind : TokenKind) : ReadsAlike K k Eq (sees kind) (sees kind) :=
  .read fun _ _ h => h.sees kind

/-- Looking for the end. -/
theorem atEnd : ReadsAlike K k Eq atEnd atEnd := .read fun _ _ h => h.atEnd

/-- A report at tokens that stand for each other. -/
theorem report {t t' : Token} (ht : K.token t t') (fault : SyntacticFault) :
    ReadsAlike K k (fun _ _ => True) (report t fault) (report t' fault) :=
  .update fun _ _ h => h.report (.syntactic ht)

/-- Both fail at what is at the front. -/
theorem failHere (fault : SyntacticFault) :
    ReadsAlike K k P (failHere fault : Production α) (failHere fault : Production β) :=
  .bind (.read fun _ _ h => h.current) fun _ _ ht => .fail (.syntactic ht)

/-- A token that has to be there is read, or both fail at what is there instead. -/
theorem require (kind : TokenKind) (fault : SyntacticFault) :
    ReadsAlike K k K.token (require kind fault) (require kind fault) :=
  accept (fun _ _ ht => .pure ht) (failHere fault)

/-- The marks and keywords of the grammar. -/
theorem expect (place : Place) : ReadsAlike K k K.token (expect place) (expect place) := require _ _

/-- A name in one of its roles. -/
theorem expectName (role : NameRole) : ReadsAlike K k K.token (expectName role) (expectName role) :=
  require _ _

/-- What is left out before a certain token is left out on both sides. -/
theorem unlessSees {kind : TokenKind} {a : α} {b : β} {x : Production α} {y : Production β}
    (hdefault : P a b) (hx : ReadsAlike K k P x y) :
    ReadsAlike K k P (unlessSees kind a x) (unlessSees kind b y) := by
  refine .bind (sees kind) ?_
  rintro seen _ rfl
  split
  · exact .pure hdefault
  · exact hx

/-- What comes behind a certain token is there on both sides or on neither. -/
theorem behind {kind : TokenKind} {x : Production α} {y : Production β} (hx : ReadsAlike K k P x y) :
    ReadsAlike K k (Option.Rel P) (behind kind x) (behind kind y) :=
  accept (fun _ _ _ => .map hx fun _ _ => .some) (.pure .none)

/-- The numbers of new occurrences stand for each other. -/
theorem freshRef {t t' : Token} (ht : K.token t t') :
    ReadsAlike K k K.Refs (freshRef t) (freshRef t') := by
  intro c d h
  refine .done ⟨?_, ht⟩ { h with
    nextId := ?_
    upcoming := fun i hi => h.upcoming i (Nat.le_of_succ_le hi) }
  · show K.number c.nextId d.nextId
    rw [h.nextId]
    exact h.upcoming _ (Nat.le_refl _)
  · show d.nextId + 1 = c.nextId + 1 + k
    rw [h.nextId]
    omega

/-- Inside a loop, or inside a function where no loop counts, and back again. -/
theorem withLoops (depth : Nat → Nat) {x : Production α} {y : Production β} (hx : ReadsAlike K k P x y) :
    ReadsAlike K k P (withLoops depth x) (withLoops depth y) := by
  refine .keeping (fun c d c' d' h h' => { h' with loopDepth := h.loopDepth }) ?_
  exact .bind (.update fun c d h => { h with loopDepth := congrArg depth h.loopDepth }) fun _ _ _ => hx

/-- The boundary behind a failure is found on both sides. -/
theorem nextBoundary {t t' : Token} (ht : K.token t t') {ts ts' : List Token}
    (hts : List.Forall₂ K.token ts ts') :
    List.Forall₂ K.token (nextBoundary t ts) (nextBoundary t' ts') := by
  induction hts generalizing t t' with
  | nil => exact .nil
  | cons hu hts ih =>
    simp only [Grammar.nextBoundary, K.kind ht, K.kind hu]
    split
    · exact .cons hu hts
    · exact ih hu

/-- A failure is reported, and both go on behind the same boundary. -/
theorem resume {p p' : Diagnostic} (hp : p.Like K p') :
    ReadsAlike K k (Option.Rel P) (resume p) (resume p') := by
  refine .bind (.update fun _ _ h => h.report hp) fun _ _ _ =>
    .bind (.update fun c d h => ?_) fun _ _ _ => .pure .none
  have hahead := h.ahead
  obtain ⟨ts, f, i, l, n, ps⟩ := c
  obtain ⟨ts', f', i', l', n', ps'⟩ := d
  cases hahead with
  | nil => exact h
  | cons ht hts => exact { h with ahead := nextBoundary ht hts }

/-- A missing brace is reported where it is missing. -/
theorem checkBlock (owner : BlockOwner) :
    ReadsAlike K k (fun _ _ => True) (checkBlock owner) (checkBlock owner) := by
  refine .bind (sees _) ?_
  rintro seen _ rfl
  split
  · exact .pure trivial
  · exact .bind (.read fun _ _ h => h.current) fun _ _ ht => report ht _

/-- The superclass of a class is an occurrence of a name. -/
theorem superclassClause : ReadsAlike K k (Option.Rel K.Refs) superclassClause superclassClause :=
  behind (.bind (expectName _) fun _ _ ht => freshRef ht)

end ReadsAlike

/-! ## What is read

  The trees that the rules build from parts that are copies are copies again, one lemma for each way to build. -/

/-- The one tree is a copy of the other. -/
def ExprCopy (K : Likeness) (e e' : Expr) : Prop := Copy K (.expr e) (.expr e')

def ExprsCopy (K : Likeness) (es es' : List Expr) : Prop := Copy K (.exprs es) (.exprs es')

def StmtCopy (K : Likeness) (s s' : Stmt) : Prop := Copy K (.stmt s) (.stmt s')

def StmtsCopy (K : Likeness) (ss ss' : List Stmt) : Prop := Copy K (.stmts ss) (.stmts ss')

def FunctionCopy (K : Likeness) (d d' : FunctionDecl) : Prop :=
  Copy K (.function .function d) (.function .function d')

def MethodsCopy (K : Likeness) (ds ds' : List FunctionDecl) : Prop := Copy K (.methods ds) (.methods ds')

/-- The operators of the level make copies of copies. -/
def Level.Copies (K : Likeness) (level : Level) : Prop :=
  ∀ {l l' op op' r r'}, ExprCopy K l l' → K.token op op' → ExprCopy K r r' →
    ExprCopy K (level.build l op r) (level.build l' op' r')

/-- The trees of all levels of operators are made from the parts in the same way. -/
theorem levels_copies : ∀ level ∈ levels, Level.Copies K level := by
  simp only [levels, levels.marks, List.mem_cons, List.not_mem_nil, or_false, forall_eq_or_imp,
    forall_eq]
  exact ⟨.logical, .logical, .binary, .binary, .binary, .binary⟩

namespace ReadsAlike

/-- An assignment is read on both sides or on neither. -/
theorem assignmentTo {target target' : Expr} (ht : ExprCopy K target target')
    {right right' : Production Expr} (hr : ReadsAlike K k (ExprCopy K) right right') :
    ReadsAlike K k (ExprCopy K) (assignmentTo target right) (assignmentTo target' right') := by
  refine accept (fun equals equals' he => .bind hr fun value value' hv => ?_) (.pure ht)
  have hneither : ReadsAlike K k (ExprCopy K)
      (Grammar.report equals .invalidTarget >>= fun _ => Pure.pure target)
      (Grammar.report equals' .invalidTarget >>= fun _ => Pure.pure target') :=
    .bind (report he _) fun _ _ _ => .pure ht
  have hcopy := ht
  cases ht with
  | name href => exact .bind (freshRef href.token) fun _ _ href => .pure (.assign href hv)
  | get ho hn => exact .pure (.set ho hn hv)
  | _ => exact hneither

/-- Both branches of a conditional expression, or neither. -/
theorem choiceBy {c c' : Expr} (hc : ExprCopy K c c') {branch branch' : Production Expr}
    (hb : ReadsAlike K k (ExprCopy K) branch branch') :
    ReadsAlike K k (ExprCopy K) (choiceBy c branch) (choiceBy c' branch') :=
  accept (fun _ _ _ => .bind hb fun _ _ ht => .bind (expect _) fun _ _ _ =>
    .bind hb fun _ _ he => .pure (.ternary hc ht he)) (.pure hc)

/-- Outside of loops a `break` is reported, and read all the same. -/
theorem breakStatement {t t' : Token} (ht : K.token t t') :
    ReadsAlike K k (StmtCopy K) (breakStatement t) (breakStatement t') := by
  have close : ReadsAlike K k (StmtCopy K)
      (Grammar.expect .breakEnd >>= fun _ => Pure.pure (Stmt.breakLoop t))
      (Grammar.expect .breakEnd >>= fun _ => Pure.pure (Stmt.breakLoop t')) :=
    .bind (expect _) fun _ _ _ => .pure (.breakLoop ht)
  have hdepth : ReadsAlike K k Eq (.read Cursor.loopDepth) (.read Cursor.loopDepth) :=
    .read fun _ _ h => h.loopDepth.symm
  refine .bind hdepth ?_
  rintro depth _ rfl
  split
  · exact .bind (report ht _) fun _ _ _ => close
  · exact close

/-- A declaration, an expression or nothing but a semicolon. -/
theorem loopInitializer {varDecl varDecl' : Production Stmt} {value value' : Production Expr}
    (hd : ReadsAlike K k (StmtCopy K) varDecl varDecl') (hv : ReadsAlike K k (ExprCopy K) value value') :
    ReadsAlike K k (Option.Rel (StmtCopy K)) (loopInitializer varDecl value)
      (loopInitializer varDecl' value') :=
  accept (fun _ _ _ => .pure .none) (accept (fun _ _ _ => .map hd fun _ _ => .some)
    (.bind hv fun _ _ hf => .bind (expect _) fun _ _ _ => .pure (.some (.expression hf))))

/-- All functions but lambdas have a name. -/
theorem routineName (kind : Routine) :
    ReadsAlike K k (Option.Rel K.token) (routineName kind) (routineName kind) := by
  rw [Grammar.routineName]
  split
  · exact .pure .none
  · exact .map (expectName _) fun _ _ => .some

/-- Parameters are names with commas between them. -/
theorem parameters (fuel : Nat) :
    ReadsAlike K k (List.Forall₂ K.token) (parameters fuel) (parameters fuel) := by
  induction fuel with
  | zero => exact .outOfFuel
  | succ fuel ih =>
    exact .bind (expectName _) fun _ _ ht => accept (fun _ _ _ => .bind ih fun _ _ hts =>
      .pure (.cons ht hts)) (.pure (.cons ht .nil))

end ReadsAlike

/-- The tree of a counting loop is made in the same way. -/
theorem countingLoop_copies {i i' : Option Stmt} {c c' n n' : Option Expr} {b b' : Stmt}
    (hi : Option.Rel (StmtCopy K) i i') (hc : Option.Rel (ExprCopy K) c c')
    (hn : Option.Rel (ExprCopy K) n n') (hb : StmtCopy K b b') :
    StmtCopy K (countingLoop i c n b) (countingLoop i' c' n' b') := by
  have hcondition : ExprCopy K (c.getD (.literal (.bool true))) (c'.getD (.literal (.bool true))) := by
    cases hc with
    | none => exact .literal
    | some hc => exact hc
  have hround : StmtCopy K (n.elim b fun e => .block [b, .expression e])
      (n'.elim b' fun e => .block [b', .expression e]) := by
    cases hn with
    | none => exact hb
    | some hn => exact .block (.stmts hb (.stmts (.expression hn) .noStmts))
  have hloop := Copy.whileLoop hcondition hround
  cases hi with
  | none => exact hloop
  | some hi => exact .block (.stmts hi (.stmts hloop .noStmts))

/-! ## The rules

  By induction on the fuel; a rule is a sequence of small productions and of rules with less fuel. -/

/-- With so much fuel every rule reads copies. -/
structure ReadsCopies (K : Likeness) (k fuel : Nat) : Prop where
  expression : ReadsAlike K k (ExprCopy K) (expression fuel) (expression fuel)
  ternary : ReadsAlike K k (ExprCopy K) (ternary fuel) (ternary fuel)
  operators : ∀ levels, (∀ level ∈ levels, Level.Copies K level) →
    ReadsAlike K k (ExprCopy K) (operators fuel levels) (operators fuel levels)
  moreOperators : ∀ level tighter, Level.Copies K level → (∀ level ∈ tighter, Level.Copies K level) →
    ∀ left left', ExprCopy K left left' →
      ReadsAlike K k (ExprCopy K) (moreOperators fuel level tighter left)
        (moreOperators fuel level tighter left')
  unary : ReadsAlike K k (ExprCopy K) (unary fuel) (unary fuel)
  calls : ∀ callee callee', ExprCopy K callee callee' →
    ReadsAlike K k (ExprCopy K) (calls fuel callee) (calls fuel callee')
  arguments : ReadsAlike K k (ExprsCopy K) (arguments fuel) (arguments fuel)
  primary : ReadsAlike K k (ExprCopy K) (primary fuel) (primary fuel)
  routine : ∀ kind keyword keyword', K.token keyword keyword' →
    ReadsAlike K k (FunctionCopy K) (routine fuel kind keyword) (routine fuel kind keyword')
  methods : ReadsAlike K k (MethodsCopy K) (methods fuel) (methods fuel)
  declaration : ReadsAlike K k (Option.Rel (StmtCopy K)) (declaration fuel) (declaration fuel)
  phrase : ReadsAlike K k (StmtCopy K) (phrase fuel) (phrase fuel)
  classDeclaration : ReadsAlike K k (StmtCopy K) (classDeclaration fuel) (classDeclaration fuel)
  varDeclaration : ReadsAlike K k (StmtCopy K) (varDeclaration fuel) (varDeclaration fuel)
  statement : ReadsAlike K k (StmtCopy K) (statement fuel) (statement fuel)
  forStatement : ReadsAlike K k (StmtCopy K) (forStatement fuel) (forStatement fuel)
  whileStatement : ReadsAlike K k (StmtCopy K) (whileStatement fuel) (whileStatement fuel)
  ifStatement : ReadsAlike K k (StmtCopy K) (ifStatement fuel) (ifStatement fuel)
  returnStatement : ∀ keyword keyword', K.token keyword keyword' →
    ReadsAlike K k (StmtCopy K) (returnStatement fuel keyword) (returnStatement fuel keyword')
  block : ReadsAlike K k (StmtsCopy K) (block fuel) (block fuel)
  declarations : ∀ inBlock,
    ReadsAlike K k (StmtsCopy K) (declarations fuel inBlock) (declarations fuel inBlock)
  expressionStatement : ReadsAlike K k (StmtCopy K) (expressionStatement fuel) (expressionStatement fuel)

namespace ReadsAlike

variable {fuel : Nat}

/-- An expression that may be left out. -/
theorem optional (ih : ReadsCopies K k fuel) (kind : TokenKind) :
    ReadsAlike K k (Option.Rel (ExprCopy K)) (Grammar.unlessSees kind none (some <$> expression fuel))
      (Grammar.unlessSees kind none (some <$> expression fuel)) :=
  unlessSees .none (.map ih.expression fun _ _ => .some)

/-- The rules call one another only with less fuel. -/
theorem copies_succ (ih : ReadsCopies K k fuel) : ReadsCopies K k (fuel + 1) where
  expression := .bind ih.ternary fun _ _ ht => assignmentTo ht ih.expression
  ternary := .bind (ih.operators _ levels_copies) fun _ _ hc => choiceBy hc ih.ternary
  operators := by
    intro levels hlevels
    cases levels with
    | nil => exact ih.unary
    | cons level tighter =>
      have hlevel : Level.Copies K level := hlevels level List.mem_cons_self
      have htighter : ∀ l ∈ tighter, Level.Copies K l :=
        fun l hl => hlevels l (List.mem_cons_of_mem _ hl)
      exact .bind (ih.operators _ htighter) fun _ _ hl =>
        ih.moreOperators _ _ hlevel htighter _ _ hl
  moreOperators := by
    intro level tighter hlevel htighter left left' hl
    exact accept (fun _ _ hop => .bind (ih.operators _ htighter) fun _ _ hr =>
      ih.moreOperators _ _ hlevel htighter _ _ (hlevel hl hop hr)) (.pure hl)
  unary := by
    refine accept (fun _ _ hop => .bind ih.unary fun _ _ hr => .pure (.unary hop hr)) ?_
    exact accept (fun _ _ hk => .bind (ih.routine _ _ _ hk) fun _ _ hd => .pure (.lambda hd))
      (.bind ih.primary fun _ _ hc => ih.calls _ _ hc)
  calls := by
    intro callee callee' hc
    refine accept (fun _ _ _ => .bind (unlessSees .noExprs ih.arguments) fun _ _ hes =>
      .bind (expect _) fun _ _ hp => ih.calls _ _ (.call hc hp hes)) ?_
    exact accept (fun _ _ _ => .bind (expectName _) fun _ _ hn => ih.calls _ _ (.get hc hn)) (.pure hc)
  arguments :=
    .bind ih.expression fun _ _ he => accept (fun _ _ _ => .bind ih.arguments fun _ _ hes =>
      .pure (.exprs he hes)) (.pure (.exprs he .noExprs))
  primary := by
    refine accept (fun t t' ht => ?_) ?_
    -- Tokens that correspond have one kind, so both readers take the same branch.
    · simp only [K.kind ht]
      exact .pure .literal
    refine accept (fun _ _ hn => .bind (freshRef hn) fun _ _ hr => .pure (.name hr)) ?_
    refine accept (fun _ _ _ => .bind ih.expression fun _ _ he => .bind (expect _) fun _ _ _ =>
      .pure (.grouping he)) ?_
    refine accept (fun _ _ hk => .bind (freshRef hk) fun _ _ hr => .pure (.this hr)) ?_
    exact accept (fun _ _ hk => .bind (expect _) fun _ _ _ => .bind (expectName _) fun _ _ hm =>
      .bind (freshRef hk) fun _ _ hr => .pure (.super hr hm)) (failHere _)
  routine := by
    intro kind keyword keyword' hk
    exact .bind (routineName _) fun _ _ hn => .bind (expect _) fun _ _ _ =>
      .bind (unlessSees .nil (parameters _)) fun _ _ hps => .bind (expect _) fun _ _ _ =>
      .bind (expect _) fun _ _ _ => .bind (withLoops _ ih.block) fun _ _ hb =>
      .pure (.function hn hk hps hb)
  methods := by
    refine .bind (sees _) ?_
    rintro atBrace _ rfl
    refine .bind atEnd ?_
    rintro ended _ rfl
    split
    · exact .pure .noMethods
    · exact .bind (require _ _) fun _ _ hk => .bind (ih.routine _ _ _ hk) fun _ _ hd =>
        .bind ih.methods fun _ _ hds => .pure (.methods hd.of_kind hds)
  declaration := .recover (.map ih.phrase fun _ _ => .some) fun _ _ hp => resume hp
  phrase := by
    refine accept (fun _ _ _ => ih.classDeclaration) ?_
    refine accept (fun _ _ hk => .bind (ih.routine _ _ _ hk) fun _ _ hd => .pure (.funcDecl hd)) ?_
    exact accept (fun _ _ _ => ih.varDeclaration) ih.statement
  classDeclaration :=
    .bind (expectName _) fun _ _ hn => .bind superclassClause fun _ _ hs =>
      .bind (expect _) fun _ _ _ => .bind ih.methods fun _ _ hds => .bind (expect _) fun _ _ _ =>
      .pure (.classDecl hn hs hds)
  varDeclaration := by
    refine .bind (expectName _) fun _ _ hn => .bind (behind ih.expression) fun _ _ he =>
      .bind (expect _) fun _ _ _ => ?_
    cases he with
    | none => exact .pure (.unset hn)
    | some he => exact .pure (.initialized hn he)
  statement := by
    refine accept (fun t t' ht => ?_) ih.expressionStatement
    dsimp only
    rw [K.kind ht]
    split
    · exact withLoops _ ih.forStatement
    · exact withLoops _ ih.whileStatement
    · exact ih.ifStatement
    · exact ih.returnStatement _ _ ht
    · exact breakStatement ht
    · exact .bind ih.block fun _ _ hb => .pure (.block hb)
  forStatement :=
    .bind (loopInitializer ih.varDeclaration ih.expression) fun _ _ hi =>
      .bind (optional ih _) fun _ _ hc => .bind (expect _) fun _ _ _ =>
      .bind (optional ih _) fun _ _ hn => .bind (checkBlock _) fun _ _ _ =>
      .bind ih.statement fun _ _ hb => .pure (countingLoop_copies hi hc hn hb)
  whileStatement :=
    .bind ih.expression fun _ _ hc => .bind (checkBlock _) fun _ _ _ =>
      .bind ih.statement fun _ _ hb => .pure (.whileLoop hc hb)
  ifStatement := by
    refine .bind ih.expression fun _ _ hc => .bind (checkBlock _) fun _ _ _ =>
      .bind ih.statement fun _ _ ht => accept (fun _ _ _ => ?_) (.pure (.ifOnly hc ht))
    refine .bind (sees _) ?_
    rintro isIf _ rfl
    split
    · exact .bind ih.statement fun _ _ he => .pure (.ifElse hc ht he)
    · exact .bind (checkBlock _) fun _ _ _ => .bind ih.statement fun _ _ he => .pure (.ifElse hc ht he)
  returnStatement := by
    intro keyword keyword' hk
    refine .bind (optional ih _) fun _ _ he => .bind (expect _) fun _ _ _ => ?_
    cases he with
    | none => exact .pure (.returned hk)
    | some he => exact .pure (.returnedValue hk he)
  block := .bind (ih.declarations _) fun _ _ hss => .bind (expect _) fun _ _ _ => .pure hss
  declarations := by
    intro inBlock
    refine .bind atEnd ?_
    rintro ended _ rfl
    refine .bind (sees _) ?_
    rintro atBrace _ rfl
    split
    · exact .pure .noStmts
    · refine .bind ih.declaration fun _ _ hs => .bind (ih.declarations _) fun _ _ hss => ?_
      cases hs with
      | none => exact .pure hss
      | some hs => exact .pure (.stmts hs hss)
  expressionStatement := by
    have hinteractive : ReadsAlike K k Eq (.read Cursor.interactive) (.read Cursor.interactive) :=
      .read fun _ _ h => h.interactive.symm
    refine .bind ih.expression fun _ _ he => .bind hinteractive ?_
    rintro interactive _ rfl
    refine .bind atEnd ?_
    rintro ended _ rfl
    split
    · exact .pure (.value he)
    · exact .bind (expect _) fun _ _ _ => .pure (.expression he)

end ReadsAlike

/-- **Every rule reads copies.** -/
theorem readsCopies (fuel : Nat) : ReadsCopies K k fuel := by
  induction fuel with
  | zero => constructor <;> intros <;> exact .outOfFuel
  | succ fuel ih => exact ReadsAlike.copies_succ ih

/-! ## Programs -/

theorem isEof_eq {t t' : Token} (h : K.token t t') : t'.isEof = t.isEof := by
  rw [Token.isEof, K.kind h, Token.isEof]

/-- The tokens before the end stand for each other. -/
theorem takeWhile_copies {ts ts' : List Token} (h : List.Forall₂ K.token ts ts') :
    List.Forall₂ K.token (ts.takeWhile (!·.isEof)) (ts'.takeWhile (!·.isEof)) := by
  induction h with
  | nil => exact .nil
  | cons ht _ ih =>
    simp only [List.takeWhile_cons, isEof_eq ht]
    split
    · exact .cons ht ih
    · exact .nil

/-- What reading gives on the one side and on the other. -/
structure ParsedCopy (K : Likeness) (k : Nat) (p p' : Parsed) : Prop where
  program : StmtsCopy K p.program p'.program
  diagnostics : List.Forall₂ (Diagnostic.Like K) p.diagnostics p'.diagnostics
  nextId : p'.nextId = p.nextId + k

/-- **Tokens that stand for each other are read as copies.**  The same is reported about them, and the
    numbers of occurrences stay as far apart as they are at first. -/
theorem parse_copies {tokens tokens' : List Token} (h : List.Forall₂ K.token tokens tokens')
    (interactive : Bool) {firstId : Nat}
    (hfinish : K.token (Cursor.start tokens interactive firstId).finish
      (Cursor.start tokens' interactive (firstId + k)).finish)
    (hup : ∀ i, firstId ≤ i → K.number i (i + k)) :
    ParsedCopy K k (parse tokens interactive firstId) (parse tokens' interactive (firstId + k)) := by
  have hahead := takeWhile_copies h
  have hfuel : (Cursor.start tokens' interactive (firstId + k)).ahead.length =
      (Cursor.start tokens interactive firstId).ahead.length := hahead.length_eq.symm
  -- The cursors start abreast, and the rules keep them so.
  have habreast : Abreast K k (Cursor.start tokens interactive firstId)
      (Cursor.start tokens' interactive (firstId + k)) :=
    ⟨hahead, hfinish, rfl, rfl, rfl, hup, .nil⟩
  have hends := (readsCopies (enoughFuel (Cursor.start tokens interactive firstId).ahead.length)).declarations
    false _ _ habreast
  rw [parse, parse, hfuel]
  generalize declarations _ false (Cursor.start tokens interactive firstId) = ending at hends ⊢
  generalize declarations _ false (Cursor.start tokens' interactive (firstId + k)) = ending' at hends ⊢
  cases hends with
  | done hprogram hc => exact ⟨hprogram, hc.problems, hc.nextId⟩
  | failed hp hc => exact ⟨.noStmts, (hc.report hp).problems, hc.nextId⟩
  | exhausted => exact ⟨.noStmts, .nil, rfl⟩
  | short h => exact h.elim

end Lox.Grammar
