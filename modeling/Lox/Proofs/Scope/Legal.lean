import Lox.Proofs.Scope.Offences

/-!
  Which programs are accepted.

  A program is legal if no block and no function declares a name twice, no variable is read in its own
  initializer, and every `return`, `this`, `super` and class stands where it may (`Legal`).  These are rules
  as a manual states them, over whole blocks and functions.  What is reported is told by spots: a declaration
  offends where its scope has the name by then (`Offence`).  The module shows that these are the same programs
  (`legal_iff`), which `resolver_accepts_exactly_legal` combines with what a walk reports.

  Most offences and rules agree one by one.  Two need an argument:

  1. *Redeclarations.*  `Fresh own names` says that the names are new to a scope that has `own` and different
     from each other.  What a phrase gives to its scope is fresh if what its parts give is (`fresh_step`);
     by induction on spots no declaration finds its name taken if in every block and function all names are
     different (`Spot.repeats_iff`).
  2. *Initializers.*  A variable is in its own initializer where the name waits, and a name waits only if its
     scope had none like it.  In a program without redeclarations both come to the same (`Spot.IsOrderly`).
-/

namespace Lox

/-- The names are all different. -/
def Distinct (names : List Token) : Prop := (names.map Token.lexeme).Nodup

namespace Scope

/-! ## Names that are new

  A name is declared once in a scope.  That no walk reports a second one is said of lists of names. -/

/-- The names are all different, and none of them is there already. -/
def Fresh (own : List String) (names : List Token) : Prop :=
  Distinct names ∧ ∀ name ∈ names, name.lexeme ∉ own

/-- No names are always new. -/
theorem fresh_nil (own : List String) : Fresh own [] := ⟨List.nodup_nil, nofun⟩

/-- One name is new if the scope does not have it. -/
theorem fresh_single {own : List String} {name : Token} : Fresh own [name] ↔ name.lexeme ∉ own := by
  simp [Fresh, Distinct]

/-- Names are new in two lists if the second ones are new behind the first. -/
theorem fresh_append {own : List String} {names names' : List Token} :
    Fresh own (names ++ names') ↔ Fresh own names ∧ Fresh (own ++ names.map Token.lexeme) names' := by
  simp only [Fresh, Distinct, List.map_append, List.nodup_append, List.mem_append, List.mem_map]
  grind

/-- Names are new if each of them is, behind those before it. -/
theorem fresh_iff_split {own : List String} {names : List Token} : Fresh own names ↔
    ∀ before name after, names = before ++ name :: after → name.lexeme ∉ own ++ before.map Token.lexeme := by
  -- The scope grows by every name: `own` is generalized.
  induction names generalizing own with
  | nil => exact iff_of_true (fresh_nil own) fun _ _ _ h => by simp at h
  | cons first names ih =>
    rw [← List.singleton_append, fresh_append, fresh_single, ih]
    constructor
    · rintro ⟨hfirst, hrest⟩ before name after hsplit
      cases before with
      | nil =>
        obtain ⟨rfl, -⟩ := List.cons_eq_cons.mp hsplit
        simpa using hfirst
      | cons _ before =>
        obtain ⟨rfl, htail⟩ := List.cons_eq_cons.mp hsplit
        simpa using hrest before name after htail
    · intro h
      refine ⟨by simpa using h [] first names rfl, fun before name after hsplit => ?_⟩
      simpa using h (first :: before) name after (congrArg (first :: ·) hsplit)

/-- To an empty scope names are new if they are different. -/
theorem fresh_empty {names : List Token} : Fresh [] names ↔ Distinct names := by
  simp [Fresh]

namespace Spot

/-- A declaration at the spot finds its name taken. -/
def Repeats (p : Spot) : Prop := ∃ name, p.Offends (.scoping name .alreadyDeclared)

/-- The names that the spot gives to the scope around it are new. -/
def IsFresh (p : Spot) : Prop := ∀ own ∈ p.around.scopes.head?, Fresh own p.phrase.given

/-- The spot is no block and no function that declares a name twice. -/
def IsDistinct (p : Spot) : Prop :=
  match p.phrase with
  | .stmt (.block ss) => Distinct (ss.flatMap Stmt.given)
  | .function _ d => Distinct (d.params ++ d.body.flatMap Stmt.given)
  | _ => True

variable {σ : Surroundings} {p : Spot}

/-- Where no names are given there is nothing to be new. -/
theorem isFresh_of_given (h : p.phrase.given = []) : p.IsFresh := fun own _ => h ▸ fresh_nil own

/-- In a scope that is there the names are compared with those of the scope. -/
theorem isFresh_iff {own : List String} {outer : List (List String)} (h : p.around.scopes = own :: outer) :
    p.IsFresh ↔ Fresh own p.phrase.given := by
  rw [IsFresh, h]
  exact ⟨fun hfresh => hfresh own rfl, fun hfresh _ hown => Option.some.inj hown ▸ hfresh⟩

/-- Behind names that a scope has got others are new if all together are. -/
theorem forall_gains {P : List String → Prop} (names : List Token) :
    (∀ own ∈ (σ.gains names).scopes.head?, P own) ↔
      ∀ own ∈ σ.scopes.head?, P (own ++ names.map Token.lexeme) := by
  unfold Surroundings.gains
  cases σ.scopes <;> simp [Surroundings.addNames]

/-- Within an expression no names are given to the scope around it. -/
theorem exprParts_given {e : Expr} : ∀ q ∈ exprParts σ e, q.phrase.given = [] := by
  cases e <;> simp [exprParts, Phrase.given]

/-- Where no name is given at the spot or within nothing is taken and nothing is repeated. -/
theorem fresh_quiet (hgiven : p.phrase.given = []) (hrepeats : ¬ p.Repeats)
    (hparts : ∀ q ∈ p.parts, q.phrase.given = []) (hdistinct : p.IsDistinct) :
    (¬ p.Repeats ∧ ∀ q ∈ p.parts, q.IsFresh) ↔ p.IsFresh ∧ p.IsDistinct :=
  iff_of_true ⟨hrepeats, fun q hq => isFresh_of_given (hparts q hq)⟩ ⟨isFresh_of_given hgiven, hdistinct⟩

/-- Where one name is given it is new unless it is taken. -/
theorem fresh_single_step (name : Token) (hgiven : p.phrase.given = [name])
    (hrepeats : p.Repeats ↔ p.around.Has name) (hparts : ∀ q ∈ p.parts, q.phrase.given = [])
    (hdistinct : p.IsDistinct) :
    (¬ p.Repeats ∧ ∀ q ∈ p.parts, q.IsFresh) ↔ p.IsFresh ∧ p.IsDistinct := by
  have hfresh : p.IsFresh ↔ ¬ p.Repeats := by
    simp only [IsFresh, hgiven, fresh_single, hrepeats, Surroundings.Has, not_exists, not_and]
  rw [hfresh]
  exact and_congr_right fun _ => iff_of_true (fun q hq => isFresh_of_given (hparts q hq)) hdistinct

/-- Where the names of the parts are those of the whole. -/
theorem fresh_apart (hrepeats : ¬ p.Repeats) (hdistinct : p.IsDistinct)
    (hparts : (∀ q ∈ p.parts, q.IsFresh) ↔ p.IsFresh) :
    (¬ p.Repeats ∧ ∀ q ∈ p.parts, q.IsFresh) ↔ p.IsFresh ∧ p.IsDistinct :=
  ⟨fun h => ⟨hparts.mp h.2, hdistinct⟩, fun h => ⟨hrepeats, hparts.mpr h.1⟩⟩

/-- The parameters of a function are all different unless one of them repeats another. -/
theorem repeats_function {kind : BodyKind} {d : FunctionDecl} :
    ¬ Repeats ⟨σ, .function kind d⟩ ↔ Distinct d.params := by
  rw [← fresh_empty, fresh_iff_split]
  constructor
  · intro h before name after hsplit hmem
    exact h ⟨name, .parameter hsplit hmem⟩
  · rintro h ⟨name, hrepeats⟩
    cases hrepeats with
    | parameter hsplit hmem => exact h _ _ _ hsplit hmem

/-- The names of one thing and those of another behind it are new if all together are. -/
theorem isFresh_append (first : Phrase) {second whole : Phrase}
    (hgiven : whole.given = first.given ++ second.given) :
    IsFresh ⟨σ, first⟩ ∧ IsFresh ⟨σ.gains first.given, second⟩ ↔ IsFresh ⟨σ, whole⟩ := by
  unfold IsFresh
  rw [forall_gains, hgiven]
  simp only [fresh_append, ← forall_and]

/-- What one statement gives to its scope, and its parts to theirs. -/
theorem fresh_step_stmt (s : Stmt) :
    (¬ Repeats ⟨σ, .stmt s⟩ ∧ ∀ q ∈ parts ⟨σ, .stmt s⟩, q.IsFresh) ↔
      IsFresh ⟨σ, .stmt s⟩ ∧ IsDistinct ⟨σ, .stmt s⟩ := by
  -- Statements that give no name to their scope; then those that give one; then a block, which has a scope of
  -- its own; then branches and loops, which pass on what their parts give.
  cases s with
  | expression e | value e | breakLoop keyword =>
    exact fresh_quiet rfl (by rintro ⟨_, ⟨⟩⟩) (by simp [parts, stmtParts, Phrase.given]) trivial
  | returnValue keyword value =>
    refine fresh_quiet rfl (by rintro ⟨_, ⟨⟩⟩) ?_ trivial
    cases value <;> simp [parts, stmtParts, Phrase.given]
  | varDecl name value =>
    refine fresh_single_step name rfl ⟨?_, fun h => ⟨name, .variable h⟩⟩ ?_ trivial
    · rintro ⟨_, hrepeats⟩
      cases hrepeats with
      | «variable» h => exact h
    · cases value <;> simp [parts, stmtParts, Phrase.given]
  | funcDecl d =>
    obtain ⟨_ | name, keyword, params, body⟩ := d
    · exact fresh_quiet rfl (by rintro ⟨_, ⟨⟩⟩) (by simp [parts, stmtParts, Phrase.given]) trivial
    · refine fresh_single_step name rfl ⟨?_, fun h => ⟨name, .function h⟩⟩
        (by simp [parts, stmtParts, Phrase.given]) trivial
      rintro ⟨_, hrepeats⟩
      cases hrepeats with
      | function h => exact h
  | classDecl name superclass methods =>
    refine fresh_single_step name rfl ⟨?_, fun h => ⟨name, .class h⟩⟩ ?_ trivial
    · rintro ⟨_, hrepeats⟩
      cases hrepeats with
      | «class» h => exact h
    · cases superclass <;> simp [parts, stmtParts, Phrase.given]
  | block ss =>
    -- A block starts with an empty scope, so that its names are new to it if they are different.
    have hbody : IsFresh ⟨σ.inBlock, .stmts ss⟩ ↔ Distinct (ss.flatMap Stmt.given) :=
      (isFresh_iff rfl).trans fresh_empty
    refine ⟨fun h => ⟨isFresh_of_given rfl, hbody.mp (h.2 _ (.head _))⟩,
      fun h => ⟨by rintro ⟨_, ⟨⟩⟩, ?_⟩⟩
    rintro q (_ | ⟨_, ⟨⟩⟩)
    exact hbody.mpr h.2
  | ifElse c t e =>
    cases e with
    | none =>
      have hbranch : IsFresh ⟨σ, .stmt t⟩ ↔ IsFresh ⟨σ, .stmt (.ifElse c t none)⟩ := by
        simp [IsFresh, Phrase.given, Stmt.given, elseGiven]
      refine fresh_apart (by rintro ⟨_, ⟨⟩⟩) trivial ⟨fun h => hbranch.mp (h _ (.tail _ (.head _))), ?_⟩
      rintro h q (_ | ⟨_, _ | ⟨_, ⟨⟩⟩⟩)
      · exact isFresh_of_given rfl
      · exact hbranch.mpr h
    | some e =>
      -- The names of the second branch stand behind those of the first.
      have hboth : IsFresh ⟨σ, .stmt t⟩ ∧ IsFresh ⟨σ.gains t.given, .stmt e⟩ ↔
          IsFresh ⟨σ, .stmt (.ifElse c t (some e))⟩ := isFresh_append (.stmt t) rfl
      refine fresh_apart (by rintro ⟨_, ⟨⟩⟩) trivial
        ⟨fun h => hboth.mp ⟨h _ (.tail _ (.head _)), h _ (.tail _ (.tail _ (.head _)))⟩, ?_⟩
      rintro h q (_ | ⟨_, _ | ⟨_, _ | ⟨_, ⟨⟩⟩⟩⟩)
      · exact isFresh_of_given rfl
      · exact (hboth.mpr h).1
      · exact (hboth.mpr h).2
  | whileLoop c b =>
    have hbody : IsFresh ⟨σ, .stmt b⟩ ↔ IsFresh ⟨σ, .stmt (.whileLoop c b)⟩ := Iff.rfl
    refine fresh_apart (by rintro ⟨_, ⟨⟩⟩) trivial ⟨fun h => hbody.mp (h _ (.tail _ (.head _))), ?_⟩
    rintro h q (_ | ⟨_, _ | ⟨_, ⟨⟩⟩⟩)
    · exact isFresh_of_given rfl
    · exact hbody.mpr h

/-- **Where no declaration finds its name taken the names of the parts are new**, and so are those of the
    whole; and the other way round. -/
theorem fresh_step (p : Spot) :
    (¬ p.Repeats ∧ ∀ q ∈ p.parts, q.IsFresh) ↔ p.IsFresh ∧ p.IsDistinct := by
  obtain ⟨σ, phrase⟩ := p
  cases phrase with
  | expr e => exact fresh_quiet rfl (by rintro ⟨_, ⟨⟩⟩) exprParts_given trivial
  | exprs es =>
    refine fresh_quiet rfl (by rintro ⟨_, ⟨⟩⟩) ?_ trivial
    cases es <;> simp [parts, Phrase.given]
  | methods ds =>
    refine fresh_quiet rfl (by rintro ⟨_, ⟨⟩⟩) ?_ trivial
    cases ds <;> simp [parts, Phrase.given]
  | stmt s => exact fresh_step_stmt s
  | stmts ss =>
    cases ss with
    | nil => exact fresh_quiet rfl (by rintro ⟨_, ⟨⟩⟩) (List.forall_mem_nil _) trivial
    | cons s ss =>
      have hboth : IsFresh ⟨σ, .stmt s⟩ ∧ IsFresh ⟨σ.gains s.given, .stmts ss⟩ ↔
          IsFresh ⟨σ, .stmts (s :: ss)⟩ := isFresh_append (.stmt s) rfl
      refine fresh_apart (by rintro ⟨_, ⟨⟩⟩) trivial
        ⟨fun h => hboth.mp ⟨h _ (.head _), h _ (.tail _ (.head _))⟩, ?_⟩
      rintro h q (_ | ⟨_, _ | ⟨_, ⟨⟩⟩⟩)
      · exact (hboth.mpr h).1
      · exact (hboth.mpr h).2
  | function kind d =>
    -- A function starts with a scope of its parameters: these are different, and the names of the body are
    -- new behind them.
    have hbody : IsFresh ⟨σ.inFunction kind d.params, .stmts d.body⟩ ↔
        Fresh (d.params.map Token.lexeme) (d.body.flatMap Stmt.given) := isFresh_iff rfl
    have hall : IsDistinct ⟨σ, .function kind d⟩ ↔
        Distinct d.params ∧ Fresh (d.params.map Token.lexeme) (d.body.flatMap Stmt.given) := by
      rw [← fresh_empty, ← List.nil_append (d.params.map _), ← fresh_append, fresh_empty]
      rfl
    rw [repeats_function, hall, ← hbody]
    refine ⟨fun h => ⟨isFresh_of_given rfl, h.1, h.2 _ (.head _)⟩, fun h => ⟨h.2.1, ?_⟩⟩
    rintro q (_ | ⟨_, ⟨⟩⟩)
    exact h.2.2

/-- **No declaration finds its name taken if the names of all blocks and functions are different**, and
    only then. -/
theorem repeats_iff (p : Spot) : (∀ q, p.Holds q → ¬ q.Repeats) ↔
    p.IsFresh ∧ ∀ q, p.Holds q → q.IsDistinct := by
  induction p using Spot.induction with
  | h p ih =>
    have hparts : (∀ q ∈ p.parts, ∀ r, q.Holds r → ¬ r.Repeats) ↔
        (∀ q ∈ p.parts, q.IsFresh) ∧ ∀ q ∈ p.parts, ∀ r, q.Holds r → r.IsDistinct := by
      rw [← forall₂_and]
      exact forall₂_congr ih
    rw [forall_holds (P := fun q => ¬ q.Repeats), forall_holds (P := IsDistinct), hparts, ← and_assoc,
      fresh_step, and_assoc]

/-! ## Initializers

  A name cannot be used in its own initializer, but it can where the initializer is in an inner scope. -/

/-- No statement stands in an initializer; and a variable whose initializer the spot is in is new. -/
structure IsOrderly (p : Spot) : Prop where
  calm : IsStatement p.phrase → p.around.Calm
  awaits : ∀ x, p.around.initializing = some x → p.around.Awaits x

/-- Where no variable is being made there is nothing to ask for. -/
theorem isOrderly_of_calm {phrase : Phrase} (h : σ.Calm) : IsOrderly ⟨σ, phrase⟩ :=
  ⟨fun _ => h, fun _ hx => nomatch h.symm.trans hx⟩

/-- In the initializer of a variable that is new it is the one that waits. -/
theorem isOrderly_initializer {name : Token} {e : Expr} (hnew : ¬ σ.Has name) :
    IsOrderly ⟨σ.inInitializer name, .expr e⟩ := by
  refine ⟨nofun, fun x hx => ⟨hx, ?_⟩⟩
  simp only [Surroundings.inInitializer] at hx
  rw [Surroundings.Has] at hnew
  simp only [Surroundings.inInitializer, Surroundings.gains]
  -- Outside of all scopes no variable waits; else the innermost one has had no namesake, and now has one.
  cases hs : σ.scopes with
  | nil => simp [hs] at hx
  | cons own outer =>
    rw [hs] at hnew
    have hx' : name.lexeme = x := by simpa [hs] using hx
    have hcount : own.count x = 0 :=
      List.count_eq_zero.mpr fun hmem => hnew ⟨own, rfl, hx' ▸ hmem⟩
    refine ⟨own ++ [x], by simp [Surroundings.addNames, hx'], ?_⟩
    rw [List.count_append, hcount, List.count_singleton_self]

/-- The parts of an expression stand where it stands, and are no statements. -/
theorem exprParts_around {e : Expr} : ∀ q ∈ exprParts σ e, q.around = σ ∧ ¬ IsStatement q.phrase := by
  cases e <;> simp [exprParts, IsStatement]

/-- But for initializers no part of a statement is in the initializer of a variable. -/
theorem stmtParts_calm {s : Stmt} (h : σ.Calm) (hs : ∀ name e, s ≠ .varDecl name (some e)) :
    ∀ q ∈ stmtParts σ s, q.around.Calm := by
  have hgains : ∀ names, (σ.gains names).Calm := fun _ => h
  -- Only the initializer of a variable is not calm; it is left out by the hypothesis.
  match s with
  | .varDecl name (some e) => exact absurd rfl (hs name e)
  | .varDecl _ none | .breakLoop _ | .returnValue _ none => exact nofun
  | .expression _ | .value _ | .returnValue _ (some _) | .ifElse _ _ none | .whileLoop _ _ =>
    simp [stmtParts, h]
  | .ifElse _ t (some _) => simp [stmtParts, h, hgains]
  | .funcDecl d => simp [stmtParts, hgains]
  | .block _ => simp [stmtParts, Surroundings.Calm, Surroundings.inBlock]
  | .classDecl name none _ =>
    rintro q (_ | ⟨_, ⟨⟩⟩)
    exact rfl
  | .classDecl name (some _) _ =>
    rintro q (_ | ⟨_, _ | ⟨_, ⟨⟩⟩⟩)
    · exact hgains [name]
    · exact rfl

/-- Within what is orderly all is orderly, unless a name is repeated. -/
theorem isOrderly_parts (h : p.IsOrderly) (hrepeats : ¬ p.Repeats) : ∀ q ∈ p.parts, q.IsOrderly := by
  obtain ⟨σ, phrase⟩ := p
  obtain ⟨hcalm, hawaits⟩ := h
  have hinner : ∀ {phrase}, ¬ IsStatement phrase → IsOrderly ⟨σ, phrase⟩ :=
    fun hs => ⟨fun hp => absurd hp hs, hawaits⟩
  match phrase with
  | .expr e =>
    intro q hq
    obtain ⟨rfl, hs⟩ := exprParts_around q hq
    exact hinner hs
  | .exprs [] | .stmts [] | .methods [] => exact nofun
  | .exprs (_ :: _) | .methods (_ :: _) =>
    rintro q (_ | ⟨_, _ | ⟨_, ⟨⟩⟩⟩)
    · exact hinner id
    · exact hinner id
  | .stmts (_ :: _) =>
    rintro q (_ | ⟨_, _ | ⟨_, ⟨⟩⟩⟩)
    · exact isOrderly_of_calm (hcalm trivial)
    · exact isOrderly_of_calm (hcalm trivial)
  | .function kind d =>
    rintro q (_ | ⟨_, ⟨⟩⟩)
    exact isOrderly_of_calm rfl
  | .stmt s =>
    -- The initializer of a variable is the one part that is not calm.
    by_cases hs : ∃ name e, s = .varDecl name (some e)
    · obtain ⟨name, e, rfl⟩ := hs
      rintro q (_ | ⟨_, ⟨⟩⟩)
      exact isOrderly_initializer fun hhas => hrepeats ⟨name, .variable hhas⟩
    · intro q hq
      exact isOrderly_of_calm (stmtParts_calm (hcalm trivial) (fun name e he => hs ⟨name, e, he⟩) q hq)

/-- By induction on the way from the spot to the one within it. -/
theorem isOrderly_of_holds {q : Spot} (hq : p.Holds q) (h : p.IsOrderly)
    (hrepeats : ∀ r, p.Holds r → ¬ r.Repeats) : q.IsOrderly := by
  induction hq with
  | refl => exact h
  | tail hr hq ih => exact isOrderly_parts ih (hrepeats _ hr) _ hq

end Spot

/-! ## Legal programs -/

/-- A program in which every name and every statement may stand where it stands. -/
structure Legal (program : List Stmt) : Prop where
  /-- No block declares a name twice. -/
  blocks : ∀ σ ss, Spot.LiesIn ⟨σ, .stmt (.block ss)⟩ program → Distinct (ss.flatMap Stmt.given)
  /-- No function declares a name twice, parameters and body taken together. -/
  functions : ∀ σ kind d, Spot.LiesIn ⟨σ, .function kind d⟩ program →
    Distinct (d.params ++ d.body.flatMap Stmt.given)
  /-- No local variable is read in its own initializer, unless within a function there. -/
  initializers : ∀ σ ref, Spot.LiesIn ⟨σ, .expr (.variable ref)⟩ program →
    σ.initializing ≠ some ref.name.lexeme
  /-- Every `return` stands in a function. -/
  returns : ∀ σ keyword e, Spot.LiesIn ⟨σ, .stmt (.returnValue keyword e)⟩ program → σ.body ≠ .topLevel
  /-- No initializer returns a value, unless from a function within it. -/
  values : ∀ σ keyword e, Spot.LiesIn ⟨σ, .stmt (.returnValue keyword (some e))⟩ program →
    σ.body ≠ .initializer
  /-- Every `this` stands in a class. -/
  instances : ∀ σ ref, Spot.LiesIn ⟨σ, .expr (.this ref)⟩ program → σ.owner ≠ .outside
  /-- The innermost class around every `super` extends another one. -/
  supers : ∀ σ ref method, Spot.LiesIn ⟨σ, .expr (.super ref method)⟩ program → σ.owner = .subclass
  /-- No class extends itself. -/
  classes : ∀ σ name ref ds, Spot.LiesIn ⟨σ, .stmt (.classDecl name (some ref) ds)⟩ program →
    ref.name.lexeme ≠ name.lexeme

/-- **A program is legal if nothing is wrong with its spots, and only then.** -/
theorem legal_iff (program : List Stmt) :
    Legal program ↔ ∀ p : Spot, p.LiesIn program → ∀ d, ¬ p.Offends d := by
  have hnames := Spot.repeats_iff (.program program)
  constructor
  -- A legal program has no offence: the four kinds of redeclaration are excluded together, by the names of
  -- blocks and functions, and every other offence by the rule about it.
  · rintro ⟨hblocks, hfunctions, hinitializers, hreturns, hvalues, hinstances, hsupers, hclasses⟩ p hp d hd
    have hdistinct : ∀ q, (Spot.program program).Holds q → q.IsDistinct := by
      rintro ⟨σ, phrase⟩ hq
      unfold Spot.IsDistinct
      dsimp only
      split
      · exact hblocks _ _ hq
      · exact hfunctions _ _ _ hq
      · trivial
    have hrepeats := hnames.mpr ⟨nofun, hdistinct⟩
    obtain ⟨σ, phrase⟩ := p
    cases hd with
    | «variable» h => exact hrepeats _ hp ⟨_, .variable h⟩
    | function h => exact hrepeats _ hp ⟨_, .function h⟩
    | «class» h => exact hrepeats _ hp ⟨_, .class h⟩
    | parameter hsplit h => exact hrepeats _ hp ⟨_, .parameter hsplit h⟩
    | initializer h => exact hinitializers _ _ hp h.1
    | superclass h => exact hclasses _ _ _ _ hp h
    | this h => exact hinstances _ _ hp h
    | super h => exact nomatch h.symm.trans (hsupers _ _ _ hp)
    | superPlain h => exact nomatch h.symm.trans (hsupers _ _ _ hp)
    | «return» h => exact hreturns _ _ _ hp h
    | value h => exact hvalues _ _ _ hp h
  -- Without offences every rule holds: the two about names by `Spot.repeats_iff`, the one about initializers
  -- because without redeclarations a name in its own initializer does wait.
  · intro hno
    have hrepeats : ∀ q, (Spot.program program).Holds q → ¬ q.Repeats :=
      fun q hq ⟨_, hd⟩ => hno q hq _ hd
    have hdistinct := (hnames.mp hrepeats).2
    constructor
    case blocks => exact fun σ ss hp => hdistinct _ hp
    case functions => exact fun σ kind d hp => hdistinct _ hp
    case initializers =>
      intro σ ref hp hx
      have horderly := Spot.isOrderly_of_holds hp (Spot.isOrderly_of_calm rfl) hrepeats
      exact hno _ hp _ (.initializer (horderly.awaits _ hx))
    case returns => exact fun σ keyword e hp h => hno _ hp _ (.return h)
    case values => exact fun σ keyword e hp h => hno _ hp _ (.value h)
    case instances => exact fun σ ref hp h => hno _ hp _ (.this h)
    case supers =>
      intro σ ref method hp
      cases ho : σ.owner with
      | outside => exact absurd (.super ho) (hno _ hp _)
      | plain => exact absurd (.superPlain ho) (hno _ hp _)
      | subclass => rfl
    case classes => exact fun σ name ref ds hp h => hno _ hp _ (.superclass h)

/-- What is reported of the names of a program. -/
structure Judged (program : List Stmt) : Prop where
  /-- Nothing is reported of legal programs, and of no others. -/
  accepted : (resolve program).diagnostics = [] ↔ Legal program
  /-- What is reported is what is wrong with a spot of the program. -/
  reported : ∀ d, d ∈ (resolve program).diagnostics ↔ ∃ p : Spot, p.LiesIn program ∧ p.Offends d
  /-- At top level no name is taken, and no variable waits for its value: all that can be wrong there
      with the declarations of names are the parameters of a function. -/
  globals : ∀ p : Spot, p.LiesIn program → p.around.scopes = [] → ∀ name,
    ¬ p.Offends (.scoping name .ownInitializer) ∧
      ((∀ kind d, p.phrase ≠ .function kind d) → ¬ p.Offends (.scoping name .alreadyDeclared))

/-- **Exactly the legal programs are accepted.**  Of any program nothing is reported if and only if no
    block and no function, its parameters and its body taken together, declares a name twice, no local
    variable is read in its own initializer, every `return` is in a function and returns no value from
    an initializer, every `this` is in a class, the innermost class around every `super` extends another
    one, and no class extends itself.  Whatever is wrong, it is reported where it stands; and names that
    are declared again at top level, or read in their own initializers there, are never reported. -/
theorem resolver_accepts_exactly_legal (program : List Stmt) : Judged program := by
  constructor
  case reported => exact reported_iff program
  case accepted =>
    rw [legal_iff, List.eq_nil_iff_forall_not_mem]
    constructor
    · exact fun h p hp d hd => h d ((reported_iff program d).mpr ⟨p, hp, hd⟩)
    · intro h d hd
      obtain ⟨p, hp, hoffends⟩ := (reported_iff program d).mp hd
      exact h p hp d hoffends
  -- Outside of all scopes there is none that could have a name.
  case globals =>
    rintro ⟨σ, phrase⟩ - hscopes name
    have hhas : ∀ name, ¬ σ.Has name := by
      rintro name ⟨own, hown, -⟩
      rw [show σ.scopes = [] from hscopes] at hown
      cases hown
    refine ⟨fun h => ?_, fun hphrase h => ?_⟩
    · cases h with
      | initializer h =>
        obtain ⟨-, own, hown, -⟩ := h
        rw [show σ.scopes = [] from hscopes] at hown
        cases hown
    · cases h with
      | «variable» h | function h | «class» h => exact hhas _ h
      | parameter _ _ => exact hphrase _ _ rfl

end Scope

end Lox
