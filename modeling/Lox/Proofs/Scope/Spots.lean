import Mathlib.Logic.Relation
import Lox.Proofs.Scope.Sites

/-!
  Spots of a program, and what surrounds them.

  A spot is a phrase together with its surroundings, as they are written: the scopes around it with the names
  that they have got by then, the innermost function and class, and the local variable whose initializer it is
  in.  `Spot.parts` are the spots directly within, so that a spot lies in a program if one comes to it from
  part to part (`Spot.LiesIn`).  Nothing here asks a walk: names are plain lists, in the order in which they
  are declared, so that a redeclaration is there twice.

  All spots are made of smaller ones, which is how facts of all walks are proved (`Spot.induction`).  It serves
  all three questions about walks with one pattern of cases: which scopes are left (`walk_scopes`), what is
  reported (`walk_reports`), and what is recorded (`walk_finds`).

  Of relations that pass through the small steps of a walk it is done once (`WalkLaw.walk`): who shows that a
  relation is reflexive, transitive and kept by a report, by a change of the scopes and by a new distance has
  shown it of every walk.
-/

namespace Lox

/-! ## Names that statements declare -/

mutual

/-- The names that a statement gives to the scope in which it stands. -/
def Stmt.given : Stmt → List Token
  | .varDecl name _ | .classDecl name _ _ => [name]
  | .funcDecl d => d.name.toList
  | .ifElse _ t e => t.given ++ elseGiven e
  | .whileLoop _ b => b.given
  | .expression _ | .value _ | .block _ | .breakLoop _ | .returnValue _ _ => []

/-- The names that a branch, if there is one, gives to the scope in which it stands. -/
def elseGiven : Option Stmt → List Token
  | none => []
  | some s => s.given

end

/-- The names that a phrase gives to the scope in which it stands. -/
def Phrase.given : Phrase → List Token
  | .stmt s => s.given
  | .stmts ss => ss.flatMap Stmt.given
  | _ => []

namespace Scope

/-! ## Surroundings -/

/-- What surrounds a place in a program. -/
structure Surroundings extends Context where
  /-- The names that each of the scopes has got by then, the innermost scope first. -/
  scopes : List (List String)
  /-- The local variable in whose initializer the place is, with no function between. -/
  initializing : Option String

namespace Surroundings

/-- The surroundings of a program. -/
def topLevel : Surroundings := ⟨.topLevel, [], none⟩

/-- The scopes with more names in the innermost one, if there is one. -/
def addNames (names : List Token) : List (List String) → List (List String)
  | [] => []
  | scope :: outer => (scope ++ names.map Token.lexeme) :: outer

/-- The innermost scope, if there is one, has got more names. -/
def gains (names : List Token) (σ : Surroundings) : Surroundings :=
  { σ with scopes := addNames names σ.scopes }

/-- In the initializer of a variable, which has its name by then. -/
def inInitializer (name : Token) (σ : Surroundings) : Surroundings :=
  { σ.gains [name] with initializing := if σ.scopes = [] then none else some name.lexeme }

/-- In a block. -/
def inBlock (σ : Surroundings) : Surroundings :=
  { σ with scopes := [] :: σ.scopes, initializing := none }

/-- In the body of a function, whose parameters are names of the same scope. -/
def inFunction (kind : BodyKind) (params : List Token) (σ : Surroundings) : Surroundings :=
  ⟨⟨kind, σ.owner⟩, params.map Token.lexeme :: σ.scopes, none⟩

/-- Among the methods of a class that extends another one, or none. -/
def inClass (extending : Bool) (σ : Surroundings) : Surroundings where
  toContext := classContext σ.toContext extending
  scopes := ["this"] :: if extending then ["super"] :: σ.scopes else σ.scopes
  initializing := none

end Surroundings

/-! ## Spots -/

/-- A phrase and what surrounds it. -/
structure Spot where
  around : Surroundings
  phrase : Phrase

/-- The spots directly within an expression. -/
def exprParts (σ : Surroundings) : Expr → List Spot
  | .literal _ | .variable _ | .this _ | .super _ _ => []
  | .grouping e | .unary _ e | .assign _ e | .get e _ => [⟨σ, .expr e⟩]
  | .binary l _ r | .logical l _ r | .set l _ r => [⟨σ, .expr l⟩, ⟨σ, .expr r⟩]
  | .ternary c t e => [⟨σ, .expr c⟩, ⟨σ, .expr t⟩, ⟨σ, .expr e⟩]
  | .call c _ es => [⟨σ, .expr c⟩, ⟨σ, .exprs es⟩]
  | .lambda d => [⟨σ, .function .function d⟩]

/-- The spots directly within a statement.  The class that another one extends is a variable that is
    read, once the name of the class is there. -/
def stmtParts (σ : Surroundings) : Stmt → List Spot
  | .expression e | .value e | .returnValue _ (some e) => [⟨σ, .expr e⟩]
  | .varDecl name (some e) => [⟨σ.inInitializer name, .expr e⟩]
  | .varDecl _ none | .breakLoop _ | .returnValue _ none => []
  | .block ss => [⟨σ.inBlock, .stmts ss⟩]
  | .ifElse c t none => [⟨σ, .expr c⟩, ⟨σ, .stmt t⟩]
  | .ifElse c t (some e) => [⟨σ, .expr c⟩, ⟨σ, .stmt t⟩, ⟨σ.gains t.given, .stmt e⟩]
  | .whileLoop c b => [⟨σ, .expr c⟩, ⟨σ, .stmt b⟩]
  | .funcDecl d => [⟨σ.gains d.name.toList, .function .function d⟩]
  | .classDecl name none ds => [⟨(σ.gains [name]).inClass false, .methods ds⟩]
  | .classDecl name (some ref) ds =>
    [⟨σ.gains [name], .expr (.variable ref)⟩, ⟨(σ.gains [name]).inClass true, .methods ds⟩]

/-- The spots directly within a spot. -/
def Spot.parts : Spot → List Spot
  | ⟨σ, .expr e⟩ => exprParts σ e
  | ⟨σ, .exprs (e :: es)⟩ => [⟨σ, .expr e⟩, ⟨σ, .exprs es⟩]
  | ⟨σ, .stmt s⟩ => stmtParts σ s
  | ⟨σ, .stmts (s :: ss)⟩ => [⟨σ, .stmt s⟩, ⟨σ.gains s.given, .stmts ss⟩]
  | ⟨σ, .function kind d⟩ => [⟨σ.inFunction kind d.params, .stmts d.body⟩]
  | ⟨σ, .methods (d :: ds)⟩ => [⟨σ, .function (methodKind d) d⟩, ⟨σ, .methods ds⟩]
  | ⟨_, .exprs []⟩ | ⟨_, .stmts []⟩ | ⟨_, .methods []⟩ => []

/-- The second spot is the first, or lies within it. -/
abbrev Spot.Holds : Spot → Spot → Prop := Relation.ReflTransGen fun p q => q ∈ p.parts

/-- The whole of a program. -/
def Spot.program (program : List Stmt) : Spot := ⟨.topLevel, .stmts program⟩

/-- The spot lies in the program. -/
def Spot.LiesIn (p : Spot) (program : List Stmt) : Prop := (Spot.program program).Holds p

/-- What holds of all spots within a spot holds of the spot, and of all within its parts. -/
theorem Spot.forall_holds {P : Spot → Prop} {p : Spot} :
    (∀ q, p.Holds q → P q) ↔ P p ∧ ∀ part ∈ p.parts, ∀ q, part.Holds q → P q := by
  constructor
  · exact fun h => ⟨h p .refl, fun part hpart q hq => h q (.head hpart hq)⟩
  · rintro ⟨hp, hparts⟩ q hq
    rcases hq.cases_head with rfl | ⟨part, hpart, hq⟩
    · exact hp
    · exact hparts part hpart q hq

/-- How large the tree of a phrase is. -/
noncomputable def phraseSize : Phrase → Nat
  | .expr e => sizeOf e
  | .exprs es => sizeOf es
  | .stmt s => sizeOf s
  | .stmts ss => sizeOf ss
  | .function _ d => sizeOf d
  | .methods ds => sizeOf ds

/-- The parts of an expression are smaller. -/
theorem size_of_exprParts {σ : Surroundings} {e : Expr} :
    ∀ q ∈ exprParts σ e, phraseSize q.phrase < sizeOf e := by
  cases e <;> simp [exprParts, phraseSize] <;> omega

/-- The parts of a statement are smaller; a superclass is read as a variable. -/
theorem size_of_stmtParts {σ : Surroundings} {s : Stmt} :
    ∀ q ∈ stmtParts σ s, phraseSize q.phrase < sizeOf s := by
  cases s with
  | varDecl name e => cases e <;> simp [stmtParts, phraseSize] <;> omega
  | ifElse c t e => cases e <;> simp [stmtParts, phraseSize] <;> omega
  | classDecl name ref ds => cases ref <;> simp [stmtParts, phraseSize] <;> omega
  | returnValue keyword e => cases e <;> simp [stmtParts, phraseSize] <;> omega
  | _ => simp [stmtParts, phraseSize] <;> omega

/-- The parts of a spot are smaller, which justifies the induction. -/
theorem Spot.size_of_parts (p : Spot) : ∀ q ∈ p.parts, phraseSize q.phrase < phraseSize p.phrase := by
  obtain ⟨σ, phrase⟩ := p
  cases phrase with
  | expr e => exact size_of_exprParts
  | stmt s => exact size_of_stmtParts
  | function kind d =>
    obtain ⟨name, keyword, params, body⟩ := d
    simp only [parts, phraseSize, FunctionDecl.body, List.forall_mem_singleton, FunctionDecl.mk.sizeOf_spec]
    omega
  | exprs es => cases es <;> simp [parts, phraseSize] <;> omega
  | stmts ss => cases ss <;> simp [parts, phraseSize] <;> omega
  | methods ds => cases ds <;> simp [parts, phraseSize] <;> omega

/-- **What holds of a spot if it holds of its parts holds of all spots.** -/
theorem Spot.induction {P : Spot → Prop} (h : ∀ p : Spot, (∀ q ∈ p.parts, P q) → P p) (p : Spot) : P p :=
  h p fun q _ => Spot.induction h q
termination_by phraseSize p.phrase
decreasing_by exact Spot.size_of_parts _ _ ‹_›

/-! ## Laws of all walks

  A property of walks that every step keeps is kept by the walk over any program. -/

/-- The relation between an earlier and a later walk passes through all small steps. -/
structure WalkLaw (R : Walk → Walk → Prop) : Prop where
  refl : ∀ w, R w w
  trans : ∀ {u v w}, R u v → R v w → R u w
  report : ∀ token fault w, R w (w.report token fault)
  scopes : ∀ scopes w, R w { w with scopes := scopes }
  found : ∀ found w, R w { w with found := found }

namespace WalkLaw

variable {R : Walk → Walk → Prop} (h : WalkLaw R)
include h

/-- Declaring a name reports it, or changes the scopes. -/
theorem declare (name : Token) (w : Walk) : R w (w.declare name) := by
  unfold Walk.declare
  split
  · exact h.refl w
  · split
    · exact h.report _ _ w
    · exact h.scopes _ w

/-- Defining a name changes the scopes. -/
theorem define (name : String) (w : Walk) : R w (w.define name) := by
  unfold Walk.define
  split
  · exact h.refl w
  · exact h.scopes _ w

theorem bind (name : Token) (w : Walk) : R w (w.bind name) := h.trans (h.declare _ w) (h.define _ _)

/-- By induction on the names. -/
theorem binds (names : List Token) (w : Walk) : R w (names.foldl (fun w name => w.bind name) w) := by
  induction names generalizing w with
  | nil => exact h.refl w
  | cons name names ih => exact h.trans (h.bind name w) (ih _)

/-- Locating a name records a distance, or does nothing. -/
theorem locate (ref : Ref) (w : Walk) : R w (w.locate ref) := by
  unfold Walk.locate
  split
  · exact h.found _ w
  · exact h.refl w

/-- A use may be reported first. -/
theorem use (ref : Ref) (w : Walk) : R w (w.use ref) := by
  unfold Walk.use
  dsimp only
  split
  · exact h.trans (h.report _ _ w) (h.locate _ _)
  · exact h.locate _ w

theorem useThis (owner : ClassKind) (ref : Ref) (w : Walk) : R w (w.useThis owner ref) := by
  cases owner with
  | outside => exact h.report _ _ w
  | plain | subclass => exact h.locate _ w

theorem useSuper (owner : ClassKind) (ref : Ref) (w : Walk) : R w (w.useSuper owner ref) := by
  cases owner with
  | outside | plain => exact h.report _ _ w
  | subclass => exact h.locate _ w

/-- What comes before the methods of a class: its name, and the superclass if there is one. -/
theorem header (name : Token) (superclass : Option Ref) (w : Walk) : R w (enterHeader name superclass w) := by
  cases superclass with
  | none => exact h.bind name w
  | some ref =>
    refine h.trans (h.bind name w) ?_
    show R _ ((w.bind name).useSuperclass name ref)
    unfold Walk.useSuperclass
    dsimp only
    split
    · exact h.trans (h.report _ _ _) (h.use _ _)
    · exact h.use _ _

/-- A `return` may be reported. -/
theorem checkReturn (body : BodyKind) (keyword : Token) (hasValue : Bool) (w : Walk) :
    R w (w.checkReturn body keyword hasValue) := by
  unfold Walk.checkReturn
  split
  · exact h.report _ _ w
  · split
    · exact h.report _ _ w
    · exact h.refl w
  · exact h.refl w

theorem enter (w : Walk) : R w w.enter := h.scopes _ w

theorem leave (w : Walk) : R w w.leave := h.scopes _ w

theorem enterClass (extending : Bool) (w : Walk) : R w (w.enterClass extending) := by
  cases extending with
  | true => exact h.trans (h.trans (h.trans (h.enter w) (h.define _ _)) (h.enter _)) (h.define _ _)
  | false => exact h.trans (h.enter w) (h.define _ _)

theorem leaveClass (extending : Bool) (w : Walk) : R w (w.leaveClass extending) := by
  cases extending with
  | true => exact h.trans (h.leave w) (h.leave _)
  | false => exact h.leave w

/-- **Of such relations every walk is an instance.** -/
theorem walk (p : Spot) (ctx : Context) (w : Walk) : R w (p.phrase.walk ctx w) := by
  induction p using Spot.induction generalizing ctx w with
  | h p ih =>
    obtain ⟨σ, phrase⟩ := p
    -- The cases are the equations of the walk: each puts its steps in a row.
    match phrase with
    | .expr (.literal _) | .exprs [] | .stmt (.breakLoop _) | .stmts [] | .methods [] => exact h.refl w
    | .expr (.variable ref) => exact h.use ref w
    | .expr (.this ref) => exact h.useThis _ ref w
    | .expr (.super ref _) => exact h.useSuper _ ref w
    | .expr (.grouping _) | .expr (.unary _ _) | .expr (.get _ _) | .stmt (.expression _)
    | .stmt (.value _) | .expr (.lambda _) => exact ih _ (.head _) ctx w
    | .expr (.binary _ _ _) | .expr (.logical _ _ _) | .expr (.set _ _ _) | .expr (.call _ _ _)
    | .exprs (_ :: _) | .stmt (.ifElse _ _ none) | .stmt (.whileLoop _ _) | .stmts (_ :: _)
    | .methods (_ :: _) => exact h.trans (ih _ (.head _) ctx w) (ih _ (.tail _ (.head _)) ctx _)
    | .expr (.ternary _ _ _) | .stmt (.ifElse _ _ (some _)) =>
      exact h.trans (ih _ (.head _) ctx w) (h.trans (ih _ (.tail _ (.head _)) ctx _)
        (ih _ (.tail _ (.tail _ (.head _))) ctx _))
    | .expr (.assign ref _) => exact h.trans (ih _ (.head _) ctx w) (h.locate ref _)
    | .stmt (.varDecl name none) => exact h.trans (h.declare name w) (h.define _ _)
    | .stmt (.varDecl name (some _)) =>
      exact h.trans (h.declare name w) (h.trans (ih _ (.head _) ctx _) (h.define _ _))
    | .stmt (.block _) => exact h.trans (h.enter w) (h.trans (ih _ (.head _) ctx _) (h.leave _))
    | .stmt (.funcDecl (.mk none _ _ _)) => exact ih _ (.head _) ctx w
    | .stmt (.funcDecl (.mk (some name) _ _ _)) => exact h.trans (h.bind name w) (ih _ (.head _) ctx _)
    | .stmt (.classDecl name none _) =>
      exact h.trans (h.header name none w) (h.trans (h.enterClass false _)
        (h.trans (ih _ (.head _) ⟨ctx.body, .plain⟩ _) (h.leaveClass false _)))
    | .stmt (.classDecl name (some ref) _) =>
      exact h.trans (h.header name (some ref) w) (h.trans (h.enterClass true _)
        (h.trans (ih _ (.tail _ (.head _)) ⟨ctx.body, .subclass⟩ _) (h.leaveClass true _)))
    | .stmt (.returnValue keyword none) => exact h.checkReturn _ keyword false w
    | .stmt (.returnValue keyword (some _)) =>
      exact h.trans (h.checkReturn _ keyword true w) (ih _ (.head _) ctx _)
    | .function kind (.mk _ _ params _) =>
      exact h.trans (h.trans (h.enter w) (h.binds params _))
        (h.trans (ih _ (.head _) ⟨kind, ctx.owner⟩ _) (h.leave _))

end WalkLaw

/-- What the second walk reports besides what the first has reported are faults of names. -/
def Reports (w w' : Walk) : Prop :=
  ∃ more, w'.problems = w.problems ++ more ∧ ∀ d ∈ more, ∃ token fault, d = .scoping token fault

/-- No walk takes a report back. -/
theorem reports_law : WalkLaw Reports where
  refl w := ⟨#[], by simp, by simp⟩
  trans := by
    rintro u v w ⟨more, hmore, hd⟩ ⟨more', hmore', hd'⟩
    refine ⟨more ++ more', by rw [hmore', hmore, Array.append_assoc], fun d hmem => ?_⟩
    exact (Array.mem_append.mp hmem).elim (hd d) (hd' d)
  report token fault w := ⟨#[.scoping token fault], rfl, fun d hd => ⟨token, fault, by simpa using hd⟩⟩
  scopes _ w := ⟨#[], by simp, by simp⟩
  found _ w := ⟨#[], by simp, by simp⟩

end Scope

/-- **What is reported of the names of a program are faults of names.** -/
theorem resolve_reports {program : List Stmt} : ∀ d ∈ (resolve program).diagnostics,
    ∃ token fault, d = .scoping token fault := by
  obtain ⟨more, hmore, hd⟩ := Scope.reports_law.walk (.program program) .topLevel .start
  intro d hmem
  have hproblems : (resolve program).diagnostics = more.toList := by
    show (Scope.walkStmts .topLevel program .start).problems.toList = _
    rw [show (Scope.walkStmts .topLevel program .start).problems = #[] ++ more from hmore]
    simp
  rw [hproblems, Array.mem_toList_iff] at hmem
  exact hd d hmem

end Lox
