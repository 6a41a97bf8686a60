import Mathlib.Data.List.Forall2
import Lox.Proofs.Scope.Spots

/-!
  The scopes of a walk, and those that are written.

  Whatever a walk goes over, and whether or not anything is wrong with it, the scopes behind it are those
  before it, but that the innermost one has the names that the phrase gives to it, and all of these can be
  used (`walk_scopes`).  There is no hypothesis in this: a redeclaration is reported, and leaves the table as
  it is; it would have had the name anyway.

  So where a walk comes to a spot its scopes match what surrounds the spot (`Surroundings.Matches`):

  * they have the same names, one scope after the other (`Names`);
  * a name waits for its value exactly if the spot is in the initializer of a new variable
    (`Surroundings.Awaits`).

  The second half walks from a spot to its parts.  `Spot.arrivals` lists what the walk knows when it comes to
  each of them, in the order of the parts, and `Reached.parts` says that the surroundings of every part match
  it again: one step from a spot to its parts, from which facts about whole walks follow by induction on spots.
-/

namespace Lox

/-- The later of two entries of a name counts. -/
theorem Table.insert_insert {α : Type} (t : Table α) (name : String) (a b : α) :
    (t.insert name a).insert name b = t.insert name b := by
  obtain ⟨entries⟩ := t
  simp only [insert, mk.injEq]
  induction entries with
  | nil => simp [insert.put]
  | cons e rest ih =>
    obtain ⟨key, c⟩ := e
    by_cases hk : key = name
    · simp [insert.put, hk]
    · simp [insert.put, hk, ih]

namespace Scope

/-! ## Scopes behind a walk

  They have gained the names that are declared at their level, and no others. -/

/-- The scopes with these names in the innermost one, if there is one, where all of them can be used. -/
def settle (names : List Token) : List Scope → List Scope
  | [] => []
  | scope :: outer => names.foldl (fun scope name => scope.insert name.lexeme .defined) scope :: outer

@[simp] theorem settle_nil (scopes : List Scope) : settle [] scopes = scopes := by
  cases scopes <;> rfl

/-- More names are settled one list after the other. -/
theorem settle_append (names names' : List Token) (scopes : List Scope) :
    settle (names ++ names') scopes = settle names' (settle names scopes) := by
  cases scopes with
  | nil => rfl
  | cons scope outer => rw [settle, List.foldl_append, settle, settle]

@[simp] theorem tail_settle (names : List Token) (scopes : List Scope) :
    (settle names scopes).tail = scopes.tail := by
  cases scopes <;> rfl

namespace Walk

/-- A name that is declared can be used behind its initializer. -/
theorem declared_scopes {name : Token} {w w' : Walk} (h : w'.scopes = (w.declare name).scopes) :
    (w'.define name.lexeme).scopes = settle [name] w.scopes := by
  unfold declare at h
  -- Outside of all scopes nothing is kept.
  cases hs : w.scopes with
  | nil =>
    rw [hs] at h
    rw [define, h.trans hs]
    exact h.trans hs
  | cons scope outer =>
    rw [hs] at h
    dsimp only at h
    -- The innermost scope has had the name, and is only marked; or it gets it, first without a value.
    split at h
    · rw [define, h.trans hs]
      rfl
    · rw [define, h]
      exact congrArg (· :: outer) (Table.insert_insert scope name.lexeme .declared .defined)

/-- A name that is declared and defined at once can be used. -/
theorem bind_scopes (name : Token) (w : Walk) : (w.bind name).scopes = settle [name] w.scopes :=
  declared_scopes rfl

/-- By induction on the names, from any walk. -/
theorem binds_scopes (names : List Token) (w : Walk) :
    (names.foldl (fun w name => w.bind name) w).scopes = settle names w.scopes := by
  induction names generalizing w with
  | nil => exact (settle_nil _).symm
  | cons name names ih =>
    rw [List.foldl_cons, ih, bind_scopes, ← settle_append]
    rfl

end Walk

/-- **Behind a walk the scopes are those before it**, but for the names that the phrase gives to the
    innermost one. -/
theorem walk_scopes (p : Spot) (ctx : Context) (w : Walk) :
    (p.phrase.walk ctx w).scopes = settle p.phrase.given w.scopes := by
  induction p using Spot.induction generalizing ctx w with
  | h p ih =>
    obtain ⟨σ, phrase⟩ := p
    -- Only statements give names to the scope around them; behind any other part it is what it was.
    have hquiet : ∀ q ∈ (⟨σ, phrase⟩ : Spot).parts, q.phrase.given = [] → ∀ ctx w,
        (q.phrase.walk ctx w).scopes = w.scopes := by
      intro q hq hgiven ctx w
      rw [ih q hq, hgiven, settle_nil]
    match phrase with
    | .expr (.literal _) | .exprs [] | .stmt (.breakLoop _) | .stmts [] | .methods [] =>
      exact (settle_nil _).symm
    | .expr (.variable ref) => exact (w.use_scopes ref).trans (settle_nil _).symm
    | .expr (.this ref) => exact (w.useThis_scopes ctx.owner ref).trans (settle_nil _).symm
    | .expr (.super ref _) => exact (w.useSuper_scopes ctx.owner ref).trans (settle_nil _).symm
    | .expr (.grouping _) | .expr (.unary _ _) | .expr (.get _ _) | .stmt (.expression _)
    | .stmt (.value _) | .expr (.lambda _) => exact ih _ (.head _) ctx w
    | .expr (.binary l _ r) | .expr (.logical l _ r) | .expr (.set l _ r) =>
      exact (ih _ (.tail _ (.head _)) ctx _).trans (congrArg (settle _) (hquiet _ (.head _) rfl ctx w))
    | .expr (.call _ _ _) | .exprs (_ :: _) | .stmt (.whileLoop _ _) | .methods (_ :: _) =>
      exact (ih _ (.tail _ (.head _)) ctx _).trans (congrArg (settle _) (hquiet _ (.head _) rfl ctx w))
    | .stmts (s :: ss) =>
      have hs := ih ⟨σ, .stmt s⟩ (.head _) ctx w
      have hss := ih ⟨σ.gains s.given, .stmts ss⟩ (.tail _ (.head _)) ctx (walkStmt ctx s w)
      show (walkStmts ctx ss (walkStmt ctx s w)).scopes = settle (s.given ++ _) w.scopes
      rw [settle_append]
      exact hss.trans (congrArg (settle _) hs)
    | .expr (.ternary _ _ _) =>
      exact (hquiet _ (.tail _ (.tail _ (.head _))) rfl ctx _).trans
        ((hquiet _ (.tail _ (.head _)) rfl ctx _).trans (ih _ (.head _) ctx w))
    | .stmt (.ifElse c t none) =>
      have ht := ih ⟨σ, .stmt t⟩ (.tail _ (.head _)) ctx (walkExpr ctx c w)
      show (walkStmt ctx t (walkExpr ctx c w)).scopes = settle (t.given ++ []) w.scopes
      rw [List.append_nil]
      exact ht.trans (congrArg (settle _) (hquiet _ (.head _) rfl ctx w))
    | .stmt (.ifElse c t (some e)) =>
      have ht := ih ⟨σ, .stmt t⟩ (.tail _ (.head _)) ctx (walkExpr ctx c w)
      have he := ih ⟨σ.gains t.given, .stmt e⟩ (.tail _ (.tail _ (.head _))) ctx
        (walkStmt ctx t (walkExpr ctx c w))
      show (walkStmt ctx e (walkStmt ctx t (walkExpr ctx c w))).scopes = settle (t.given ++ e.given) w.scopes
      rw [settle_append]
      exact he.trans (congrArg (settle _) (ht.trans (congrArg (settle _) (hquiet _ (.head _) rfl ctx w))))
    | .expr (.assign ref _) =>
      exact ((Walk.locate_scopes ref _).trans (hquiet _ (.head _) rfl ctx w)).trans (settle_nil _).symm
    | .stmt (.varDecl name none) => exact Walk.bind_scopes name w
    | .stmt (.varDecl name (some _)) =>
      exact Walk.declared_scopes (hquiet _ (.head _) rfl ctx (w.declare name))
    | .stmt (.block _) =>
      -- The names of the block are in its own scope, which is left behind it.
      have hbody := congrArg List.tail (ih _ (.head _) ctx w.enter)
      exact hbody.trans ((tail_settle _ _).trans (settle_nil _).symm)
    | .stmt (.funcDecl (.mk none _ _ _)) => exact ih _ (.head _) ctx w
    | .stmt (.funcDecl (.mk (some name) _ _ _)) =>
      exact (hquiet _ (.head _) rfl ctx (w.bind name)).trans (Walk.bind_scopes name w)
    | .stmt (.classDecl name none _) =>
      have hmethods := hquiet _ (.head _) rfl ⟨ctx.body, .plain⟩ ((w.bind name).enterClass false)
      exact (Walk.leaveClass_scopes false hmethods).trans (Walk.bind_scopes name w)
    | .stmt (.classDecl name (some ref) _) =>
      have hmethods := hquiet _ (.tail _ (.head _)) rfl ⟨ctx.body, .subclass⟩
        (((w.bind name).useSuperclass name ref).enterClass true)
      exact (Walk.leaveClass_scopes true hmethods).trans
        ((Walk.useSuperclass_scopes name ref _).trans (Walk.bind_scopes name w))
    | .stmt (.returnValue keyword none) =>
      exact (Walk.checkReturn_scopes ctx.body keyword false w).trans (settle_nil _).symm
    | .stmt (.returnValue keyword (some _)) =>
      exact (ih _ (.head _) ctx _).trans
        (congrArg (settle _) (Walk.checkReturn_scopes ctx.body keyword true w))
    | .function kind (.mk _ _ params _) =>
      have hbody := congrArg List.tail (ih _ (.head _) ⟨kind, ctx.owner⟩ (enterFunction params w))
      have hparams := congrArg List.tail (Walk.binds_scopes params w.enter)
      rw [tail_settle] at hbody hparams
      exact hbody.trans (hparams.trans (settle_nil _).symm)

/-- Behind a phrase that gives no names the scopes are those before it. -/
theorem walk_scopes_eq {p : Spot} (h : p.phrase.given = []) (ctx : Context) (w : Walk) :
    (p.phrase.walk ctx w).scopes = w.scopes := by
  rw [walk_scopes, h, settle_nil]

/-! ## Surroundings that a walk finds

  The scopes of the walk at a place are told by what stands around the place. -/

/-- These are the names of the scope. -/
def Names (scope : Scope) (names : List String) : Prop := ∀ x, scope.contains x = true ↔ x ∈ names

namespace Surroundings

/-- The place is in the initializer of a local variable, of which its scope has had no namesake. -/
def Awaits (σ : Surroundings) (x : String) : Prop :=
  σ.initializing = some x ∧ ∃ scope ∈ σ.scopes.head?, scope.count x = 1

/-- The scopes of a walk have the names that surround a place, and the one name that waits for its value
    is that of the variable whose initializer the place is in. -/
structure Matches (σ : Surroundings) (scopes : List Scope) : Prop where
  named : List.Forall₂ Names scopes σ.scopes
  waits : ∀ x, (scopes.head?.bind (·.get? x) = some .declared) ↔ σ.Awaits x

/-- No variable is being made. -/
def Calm (σ : Surroundings) : Prop := σ.initializing = none

variable {σ : Surroundings} {scopes : List Scope}

/-- A program begins with no scopes, in which nothing waits. -/
theorem topLevel_matches : topLevel.Matches [] := ⟨.nil, fun _ => ⟨nofun, fun h => nomatch h.1⟩⟩

/-- Where no variable is being made no name waits for its value. -/
theorem Matches.of_calm (hσ : σ.Calm) (hnamed : List.Forall₂ Names scopes σ.scopes)
    (hwaits : ∀ x, scopes.head?.bind (·.get? x) ≠ some .declared) : σ.Matches scopes :=
  ⟨hnamed, fun x => ⟨fun h => absurd h (hwaits x), fun h => nomatch hσ.symm.trans h.1⟩⟩

end Surroundings

/-- A name that is entered, in whatever standing, is one more name. -/
theorem Names.insert {scope : Scope} {names : List String} (h : Names scope names) (x : String)
    (standing : Standing) : Names (scope.insert x standing) (names ++ [x]) := by
  intro y
  rw [Table.contains_insert, Bool.or_eq_true, decide_eq_true_eq, h y, List.mem_append, List.mem_singleton]
  exact ⟨fun hy => hy.symm.imp_right Eq.symm, fun hy => hy.symm.imp_left Eq.symm⟩

/-- By induction on the names. -/
theorem Names.inserts {scope : Scope} {names : List String} (h : Names scope names) (ts : List Token) :
    Names (ts.foldl (fun scope name => scope.insert name.lexeme .defined) scope)
      (names ++ ts.map Token.lexeme) := by
  induction ts generalizing scope names with
  | nil =>
    rw [List.map_nil, List.append_nil]
    exact h
  | cons t ts ih =>
    have hrest := ih (h.insert t.lexeme .defined)
    rwa [List.append_assoc] at hrest

/-- Names that can be used do not wait. -/
theorem get?_inserts {scope : Scope} {x : String} (h : scope.get? x ≠ some .declared) (ts : List Token) :
    (ts.foldl (fun scope name => scope.insert name.lexeme .defined) scope).get? x ≠ some .declared := by
  induction ts generalizing scope with
  | nil => exact h
  | cons t ts ih =>
    refine ih ?_
    rw [Table.get?_insert]
    split
    · exact nofun
    · exact h

/-- The names that are settled are the names that the surroundings gain. -/
theorem named_settle {scopes : List Scope} {names : List (List String)}
    (h : List.Forall₂ Names scopes names) (ts : List Token) :
    List.Forall₂ Names (settle ts scopes) (Surroundings.addNames ts names) := by
  cases h with
  | nil => exact .nil
  | cons hscope houter => exact .cons (hscope.inserts ts) houter

/-- What has been settled does not wait, and nothing else begins to. -/
theorem waits_settle {scopes : List Scope} {x : String}
    (h : scopes.head?.bind (·.get? x) ≠ some .declared) (ts : List Token) :
    (settle ts scopes).head?.bind (·.get? x) ≠ some .declared := by
  cases scopes with
  | nil => exact h
  | cons scope outer => exact get?_inserts h ts

namespace Surroundings.Matches

variable {σ : Surroundings} {scopes : List Scope}

/-- In calm surroundings no name waits. -/
theorem not_waits (h : σ.Matches scopes) (hσ : σ.Calm) (x : String) :
    scopes.head?.bind (·.get? x) ≠ some .declared :=
  fun hx => nomatch hσ.symm.trans ((h.waits x).mp hx).1

/-- The names that a statement gives to its scope are there behind it, in both. -/
theorem gains (h : σ.Matches scopes) (hσ : σ.Calm) (ts : List Token) :
    (σ.gains ts).Matches (settle ts scopes) :=
  .of_calm hσ (named_settle h.named ts) fun x => waits_settle (h.not_waits hσ x) ts

/-- A block begins with an empty scope. -/
theorem inBlock (h : σ.Matches scopes) : σ.inBlock.Matches (.empty :: scopes) :=
  .of_calm rfl (.cons (fun _ => ⟨nofun, nofun⟩) h.named) nofun

/-- A function begins with a scope of its parameters. -/
theorem inFunction (h : σ.Matches scopes) (kind : BodyKind) (params : List Token) :
    (σ.inFunction kind params).Matches (settle params (.empty :: scopes)) :=
  .of_calm rfl (named_settle h.inBlock.named params) fun x =>
    waits_settle (h.inBlock.not_waits rfl x) params

/-- A class begins with the scopes of `this` and, if it extends another one, of `super`. -/
theorem inClass (h : σ.Matches scopes) (extending : Bool) :
    (σ.inClass extending).Matches (Walk.classScopes extending ++ scopes) := by
  have hown : ∀ x, Names (Table.empty.insert x .defined) [x] := fun x y => by
    rw [Table.contains_single, decide_eq_true_eq, List.mem_singleton]
  have hwaits : ∀ x, (Table.empty.insert "this" Standing.defined).get? x ≠ some .declared := fun x => by
    rw [Table.get?_insert]
    split <;> exact nofun
  cases extending with
  | true => exact .of_calm rfl (.cons (hown _) (.cons (hown _) h.named)) hwaits
  | false => exact .of_calm rfl (.cons (hown _) h.named) hwaits

/-- In the initializer of a variable its name waits, unless the scope has had the name before. -/
theorem inInitializer {w : Walk} (h : σ.Matches w.scopes) (hσ : σ.Calm) (name : Token) :
    (σ.inInitializer name).Matches (w.declare name).scopes := by
  have hnot := h.not_waits hσ
  obtain ⟨ctx, names, initializing⟩ := σ
  obtain ⟨scopes, found, problems⟩ := w
  obtain ⟨hnamed, -⟩ := h
  -- Outside of all scopes a variable is global, and no name waits.
  cases hnamed with
  | nil => exact .of_calm rfl .nil nofun
  | @cons scope own outer others hscope houter =>
    by_cases hc : scope.contains name.lexeme = true
    · have hmem : name.lexeme ∈ own := (hscope _).mp hc
      have hdeclare : (Walk.declare name ⟨scope :: outer, found, problems⟩).scopes = scope :: outer := by
        simp [Walk.declare, hc]
      rw [hdeclare]
      refine ⟨.cons (fun x => ?_) houter, fun x => ⟨fun hx => absurd hx (hnot x), ?_⟩⟩
      · rw [hscope, List.map_singleton, List.mem_append, List.mem_singleton]
        exact ⟨.inl, fun hx => hx.elim id fun hx => hx ▸ hmem⟩
      · rintro ⟨hx, _, hown, hcount⟩
        -- The scope has had the name before, so it is there twice.
        cases hown
        have hx' : name.lexeme = x := Option.some.inj hx
        have hpos := List.count_pos_iff.mpr (hx' ▸ hmem)
        rw [List.map_singleton, List.count_append, hx', List.count_singleton_self] at hcount
        omega
    · have hnew : name.lexeme ∉ own := fun hmem => hc ((hscope _).mpr hmem)
      have hdeclare : (Walk.declare name ⟨scope :: outer, found, problems⟩).scopes =
          scope.insert name.lexeme .declared :: outer := by
        simp [Walk.declare, hc]
      rw [hdeclare]
      refine ⟨.cons (hscope.insert name.lexeme .declared) houter, fun x => ?_⟩
      show (scope.insert name.lexeme .declared).get? x = some .declared ↔ _
      rw [Table.get?_insert]
      split
      · rename_i hx
        refine ⟨fun _ => ⟨congrArg some hx, _, rfl, ?_⟩, fun _ => rfl⟩
        rw [List.map_singleton, List.count_append, hx, List.count_singleton_self,
          List.count_eq_zero.mpr (hx ▸ hnew)]
      · rename_i hx
        exact ⟨fun hw => absurd hw (hnot x), fun hw => absurd (Option.some.inj hw.1) hx⟩

end Surroundings.Matches

/-! ## Coming to a spot -/

/-- Of a class that extends itself it is reported. -/
def Walk.checkSuperclass (name : Token) (ref : Ref) (w : Walk) : Walk :=
  if ref.name.lexeme = name.lexeme then w.report ref.name .selfInheritance else w

/-- What the walk knows when it comes to the parts of an expression, one after the other. -/
def exprArrivals (ctx : Context) (w : Walk) : Expr → List Walk
  | .literal _ | .variable _ | .this _ | .super _ _ => []
  | .grouping _ | .unary _ _ | .assign _ _ | .get _ _ | .lambda _ => [w]
  | .binary l _ _ | .logical l _ _ | .set l _ _ | .call l _ _ => [w, walkExpr ctx l w]
  | .ternary c t _ => [w, walkExpr ctx c w, walkExpr ctx t (walkExpr ctx c w)]

/-- What the walk knows when it comes to the parts of a statement, one after the other. -/
def stmtArrivals (ctx : Context) (w : Walk) : Stmt → List Walk
  | .expression _ | .value _ => [w]
  | .returnValue keyword (some _) => [w.checkReturn ctx.body keyword true]
  | .varDecl name (some _) => [w.declare name]
  | .varDecl _ none | .breakLoop _ | .returnValue _ none => []
  | .block _ => [w.enter]
  | .ifElse c _ none | .whileLoop c _ => [w, walkExpr ctx c w]
  | .ifElse c t (some _) => [w, walkExpr ctx c w, walkStmt ctx t (walkExpr ctx c w)]
  | .funcDecl d => [d.name.elim w w.bind]
  | .classDecl name none _ => [(w.bind name).enterClass false]
  | .classDecl name (some ref) _ =>
    [(w.bind name).checkSuperclass name ref, ((w.bind name).useSuperclass name ref).enterClass true]

/-- What the walk knows when it comes to the parts of a spot, one after the other. -/
def Spot.arrivals (w : Walk) : Spot → List Walk
  | ⟨σ, .expr e⟩ => exprArrivals σ.toContext w e
  | ⟨σ, .exprs (e :: _)⟩ => [w, walkExpr σ.toContext e w]
  | ⟨σ, .stmt s⟩ => stmtArrivals σ.toContext w s
  | ⟨σ, .stmts (s :: _)⟩ => [w, walkStmt σ.toContext s w]
  | ⟨_, .function _ d⟩ => [enterFunction d.params w]
  | ⟨σ, .methods (d :: _)⟩ => [w, walkFunction σ.toContext (methodKind d) d w]
  | ⟨_, .exprs []⟩ | ⟨_, .stmts []⟩ | ⟨_, .methods []⟩ => []

/-- The phrase is a statement, or several. -/
def IsStatement : Phrase → Prop
  | .stmt _ | .stmts _ => True
  | _ => False

/-- A walk that knows this may come to the spot: no statement stands in the initializer of a variable,
    and the scopes match. -/
structure Reached (p : Spot) (w : Walk) : Prop where
  calm : IsStatement p.phrase → p.around.Calm
  scopes : p.around.Matches w.scopes

/-- Walks come to spots, one to each. -/
def AllReached : List Spot → List Walk → Prop
  | p :: ps, w :: ws => Reached p w ∧ AllReached ps ws
  | [], [] => True
  | _, _ => False

namespace Reached

variable {σ : Surroundings} {w : Walk}

/-- The walk over a program starts in the surroundings of the program. -/
theorem program (program : List Stmt) : Reached (.program program) .start :=
  ⟨fun _ => rfl, Surroundings.topLevel_matches⟩

/-- Coming to what is no statement. -/
theorem inner {phrase : Phrase} (h : σ.Matches w.scopes) (hs : ¬ IsStatement phrase) :
    Reached ⟨σ, phrase⟩ w :=
  ⟨fun hp => absurd hp hs, h⟩

/-- Coming to a statement. -/
theorem statement {phrase : Phrase} (h : σ.Matches w.scopes) (hσ : σ.Calm) : Reached ⟨σ, phrase⟩ w :=
  ⟨fun _ => hσ, h⟩

/-- Behind an expression, or anything else that gives no names, the same spot can be come to. -/
theorem behind {p : Spot} (h : σ.Matches w.scopes) (hp : p.phrase.given = []) (ctx : Context) :
    σ.Matches (p.phrase.walk ctx w).scopes := by
  rw [walk_scopes_eq hp]
  exact h

/-- The parts of an expression have its surroundings, and what lies before them gives no names. -/
theorem exprParts {e : Expr} (h : σ.Matches w.scopes) :
    AllReached (Scope.exprParts σ e) (exprArrivals σ.toContext w e) := by
  have hbehind : ∀ l, σ.Matches (walkExpr σ.toContext l w).scopes :=
    fun l => behind (p := ⟨σ, .expr l⟩) h rfl _
  match e with
  | .literal _ | .variable _ | .this _ | .super _ _ => trivial
  | .grouping _ | .unary _ _ | .assign _ _ | .get _ _ | .lambda _ => exact ⟨inner h id, trivial⟩
  | .binary l _ _ | .logical l _ _ | .set l _ _ | .call l _ _ =>
    exact ⟨inner h id, inner (hbehind l) id, trivial⟩
  | .ternary c t _ =>
    have ht := behind (p := ⟨σ, .expr t⟩) (hbehind c) rfl σ.toContext
    exact ⟨inner h id, inner (hbehind c) id, inner ht id, trivial⟩

/-- The parts of a statement: what it opens around them is what the walk has opened by then. -/
theorem stmtParts {s : Stmt} (h : σ.Matches w.scopes) (hσ : σ.Calm) :
    AllReached (Scope.stmtParts σ s) (stmtArrivals σ.toContext w s) := by
  have hbehind : ∀ c, σ.Matches (walkExpr σ.toContext c w).scopes :=
    fun c => behind (p := ⟨σ, .expr c⟩) h rfl _
  have hbind : ∀ name, (σ.gains [name]).Matches (w.bind name).scopes := fun name => by
    rw [Walk.bind_scopes]
    exact h.gains hσ [name]
  -- The cases are sorted by where the parts stand: in the same surroundings, in an initializer, in a block,
  -- behind names that have been gained, among methods.
  match s with
  | .expression _ | .value _ => exact ⟨inner h id, trivial⟩
  | .returnValue keyword (some _) =>
    refine ⟨inner ?_ id, trivial⟩
    rw [Walk.checkReturn_scopes]
    exact h
  | .varDecl name (some _) => exact ⟨inner (h.inInitializer hσ name) id, trivial⟩
  | .varDecl _ none | .breakLoop _ | .returnValue _ none => trivial
  | .block _ => exact ⟨statement h.inBlock rfl, trivial⟩
  | .ifElse c _ none | .whileLoop c _ => exact ⟨inner h id, statement (hbehind c) hσ, trivial⟩
  | .ifElse c t (some _) =>
    refine ⟨inner h id, statement (hbehind c) hσ, statement ?_ hσ, trivial⟩
    -- The second branch is come to behind the names of the first: a branch that is a declaration gives them.
    have ht := walk_scopes ⟨σ, .stmt t⟩ σ.toContext (walkExpr σ.toContext c w)
    exact ht ▸ (hbehind c).gains hσ t.given
  | .funcDecl (.mk none _ _ _) =>
    refine ⟨inner ?_ id, trivial⟩
    have hnone := h.gains hσ []
    rwa [settle_nil] at hnone
  | .funcDecl (.mk (some name) _ _ _) => exact ⟨inner (hbind name) id, trivial⟩
  | .classDecl name none _ =>
    refine ⟨inner ?_ id, trivial⟩
    rw [Walk.enterClass_scopes]
    exact (hbind name).inClass false
  | .classDecl name (some ref) _ =>
    refine ⟨inner ?_ id, inner ?_ id, trivial⟩
    · unfold Walk.checkSuperclass
      split
      · exact hbind name
      · exact hbind name
    · rw [Walk.enterClass_scopes, Walk.useSuperclass_scopes]
      exact (hbind name).inClass true

/-- **A walk that comes to a spot comes to its parts.** -/
theorem parts {p : Spot} (h : Reached p w) : AllReached p.parts (p.arrivals w) := by
  obtain ⟨σ, phrase⟩ := p
  obtain ⟨hcalm, hscopes⟩ := h
  match phrase with
  | .expr e => exact exprParts hscopes
  | .stmt s => exact stmtParts hscopes (hcalm trivial)
  | .exprs [] | .stmts [] | .methods [] => trivial
  | .exprs (e :: _) => exact ⟨inner hscopes id, inner (behind (p := ⟨σ, .expr e⟩) hscopes rfl _) id, trivial⟩
  | .methods (d :: _) =>
    exact ⟨inner hscopes id, inner (behind (p := ⟨σ, .function (methodKind d) d⟩) hscopes rfl _) id, trivial⟩
  | .stmts (s :: _) =>
    -- The others are come to with the names that the first has given.
    have hs := walk_scopes ⟨σ, .stmt s⟩ σ.toContext w
    exact ⟨statement hscopes (hcalm trivial),
      statement (hs ▸ hscopes.gains (hcalm trivial) s.given) (hcalm trivial), trivial⟩
  | .function kind d =>
    refine ⟨statement ?_ rfl, trivial⟩
    rw [enterFunction, Walk.binds_scopes]
    exact hscopes.inFunction kind d.params

end Reached

end Scope

end Lox
