import Lox.Proofs.Scope.Matched

/-!
  A walk that remembers where it is.

  A walk over a program is told at every step which kinds of function and class are innermost there: they are
  arguments of its functions.  It can as well have them in its state: set them when it comes to a
  function or a class, and set them back when it leaves it (`Phrase.track`).  This is the form with two
  variables that are assigned and restored.

  It sets back all that it sets: behind every phrase the kinds are those before it, and but for them it has done
  the same (`track_eq`).  The proof is an induction on spots; a function and a class are the cases in which
  something is set, and there the induction hypothesis is used at the kinds that have been set.
-/

namespace Lox

namespace Scope

/-- The state of a walk that knows itself which function and which class are innermost. -/
structure Tracker extends Walk where
  body : BodyKind
  owner : ClassKind

namespace Tracker

/-- A step of the walk, at the same place. -/
def step (f : Walk → Walk) (s : Tracker) : Tracker := { s with toWalk := f s.toWalk }

/-- The walk before its first step. -/
def start : Tracker := ⟨.start, .topLevel, .outside⟩

end Tracker

mutual

/-- Walks over an expression. -/
def trackExpr : Expr → Tracker → Tracker
  | .literal _, s => s
  | .grouping inner, s => trackExpr inner s
  | .unary _ right, s => trackExpr right s
  | .binary left _ right, s => trackExpr right (trackExpr left s)
  | .logical left _ right, s => trackExpr right (trackExpr left s)
  | .ternary condition thenBranch elseBranch, s =>
    trackExpr elseBranch (trackExpr thenBranch (trackExpr condition s))
  | .variable ref, s => s.step (·.use ref)
  | .assign ref value, s => (trackExpr value s).step (·.locate ref)
  | .call callee _ arguments, s => trackExprs arguments (trackExpr callee s)
  | .get object _, s => trackExpr object s
  | .set object _ value, s => trackExpr value (trackExpr object s)
  | .lambda declaration, s => trackFunction .function declaration s
  | .this ref, s => s.step (·.useThis s.owner ref)
  | .super ref _, s => s.step (·.useSuper s.owner ref)

/-- Walks over expressions from left to right. -/
def trackExprs : List Expr → Tracker → Tracker
  | [], s => s
  | e :: rest, s => trackExprs rest (trackExpr e s)

/-- Walks over an expression that may be left out. -/
def trackOptional : Option Expr → Tracker → Tracker
  | none, s => s
  | some e, s => trackExpr e s

/-- Walks over a statement.  Among the methods of a class the class is the innermost one, and behind them
    again the one before. -/
def trackStmt : Stmt → Tracker → Tracker
  | .expression value, s => trackExpr value s
  | .value value, s => trackExpr value s
  | .varDecl name initializer, s =>
    (trackOptional initializer (s.step (·.declare name))).step (·.define name.lexeme)
  | .block body, s => (trackStmts body (s.step (·.enter))).step (·.leave)
  | .ifElse condition thenBranch elseBranch, s =>
    trackElse elseBranch (trackStmt thenBranch (trackExpr condition s))
  | .whileLoop condition body, s => trackStmt body (trackExpr condition s)
  | .breakLoop _, s => s
  | .funcDecl declaration, s =>
    trackFunction .function declaration (s.step fun w => declaration.name.elim w w.bind)
  | .classDecl name superclass methods, s =>
    let enclosing := s.owner
    let s := ({ s with owner := .plain } : Tracker).step (·.bind name)
    let s := superclass.elim s fun ref => ({ s with owner := .subclass } : Tracker).step (·.useSuperclass name ref)
    let s := trackMethods methods (s.step (·.enterClass superclass.isSome))
    { s.step (·.leaveClass superclass.isSome) with owner := enclosing }
  | .returnValue keyword value, s =>
    trackOptional value (s.step (·.checkReturn s.body keyword value.isSome))

/-- Walks over statements in their order. -/
def trackStmts : List Stmt → Tracker → Tracker
  | [], s => s
  | first :: rest, s => trackStmts rest (trackStmt first s)

/-- Walks over a branch that may be left out. -/
def trackElse : Option Stmt → Tracker → Tracker
  | none, s => s
  | some branch, s => trackStmt branch s

/-- Walks over a function.  In its body the function is the innermost one, and behind it again the one
    before. -/
def trackFunction (kind : BodyKind) : FunctionDecl → Tracker → Tracker
  | .mk _ _ params body, s =>
    let enclosing := s.body
    let s := ({ s with body := kind } : Tracker).step (enterFunction params)
    { (trackStmts body s).step (·.leave) with body := enclosing }

/-- Walks over the methods of a class. -/
def trackMethods : List FunctionDecl → Tracker → Tracker
  | [], s => s
  | method :: rest, s => trackMethods rest (trackFunction (methodKind method) method s)

end

end Scope

/-- Walks over the phrase, with what surrounds it in the state. -/
def Phrase.track : Phrase → Scope.Tracker → Scope.Tracker
  | .expr e, s => Scope.trackExpr e s
  | .exprs es, s => Scope.trackExprs es s
  | .stmt t, s => Scope.trackStmt t s
  | .stmts ts, s => Scope.trackStmts ts s
  | .function kind d, s => Scope.trackFunction kind d s
  | .methods ds, s => Scope.trackMethods ds s

namespace Scope

/-- **Behind a walk that remembers where it is the innermost function and class are those before it**, and
    it has done what a walk does that is told. -/
theorem track_eq (p : Spot) (s : Tracker) :
    p.phrase.track s = s.step (p.phrase.walk ⟨s.body, s.owner⟩) := by
  induction p using Spot.induction generalizing s with
  | h p ih =>
    obtain ⟨σ, phrase⟩ := p
    match phrase with
    | .expr (.literal _) | .exprs [] | .stmts [] | .methods [] | .stmt (.breakLoop _)
    | .expr (.variable _) | .expr (.this _) | .expr (.super _ _) | .stmt (.varDecl _ none)
    | .stmt (.returnValue _ none) => rfl
    | .expr (.grouping _) | .expr (.unary _ _) | .expr (.get _ _) | .stmt (.expression _)
    | .stmt (.value _) | .expr (.lambda _) => exact ih _ (.head _) s
    | .expr (.binary l _ r) | .expr (.logical l _ r) | .expr (.set l _ r) =>
      exact (congrArg (trackExpr r) (ih _ (.head _) s)).trans (ih _ (.tail _ (.head _)) _)
    | .expr (.call c _ es) | .exprs (c :: es) =>
      exact (congrArg (trackExprs es) (ih _ (.head _) s)).trans (ih _ (.tail _ (.head _)) _)
    | .stmt (.ifElse _ t none) | .stmt (.whileLoop _ t) =>
      exact (congrArg (trackStmt t) (ih _ (.head _) s)).trans (ih _ (.tail _ (.head _)) _)
    | .stmts (_ :: ss) =>
      exact (congrArg (trackStmts ss) (ih _ (.head _) s)).trans (ih _ (.tail _ (.head _)) _)
    | .methods (_ :: ds) =>
      exact (congrArg (trackMethods ds) (ih _ (.head _) s)).trans (ih _ (.tail _ (.head _)) _)
    | .expr (.ternary _ t e) =>
      have ht := (congrArg (trackExpr t) (ih _ (.head _) s)).trans (ih _ (.tail _ (.head _)) _)
      exact (congrArg (trackExpr e) ht).trans (ih _ (.tail _ (.tail _ (.head _))) _)
    | .stmt (.ifElse _ t (some e)) =>
      have ht := (congrArg (trackStmt t) (ih _ (.head _) s)).trans (ih _ (.tail _ (.head _)) _)
      exact (congrArg (trackStmt e) ht).trans (ih _ (.tail _ (.tail _ (.head _))) _)
    | .expr (.assign ref _) => exact congrArg (Tracker.step (·.locate ref)) (ih _ (.head _) s)
    | .stmt (.varDecl name (some _)) =>
      exact congrArg (Tracker.step (·.define name.lexeme)) (ih _ (.head _) (s.step (·.declare name)))
    | .stmt (.block _) => exact congrArg (Tracker.step (·.leave)) (ih _ (.head _) (s.step (·.enter)))
    | .stmt (.returnValue keyword (some _)) =>
      exact ih _ (.head _) (s.step (·.checkReturn s.body keyword true))
    | .stmt (.funcDecl (.mk none _ _ _)) => exact ih _ (.head _) s
    | .stmt (.funcDecl (.mk (some name) _ _ _)) => exact ih _ (.head _) (s.step (·.bind name))
    -- The methods see another class, and the body another function: both are set back behind them.
    | .stmt (.classDecl name none _) =>
      let inside : Tracker := ⟨(s.bind name).enterClass false, s.body, .plain⟩
      exact congrArg (fun t : Tracker => { t.step (·.leaveClass false) with owner := s.owner })
        (ih _ (.head _) inside)
    | .stmt (.classDecl name (some ref) _) =>
      let inside : Tracker := ⟨((s.bind name).useSuperclass name ref).enterClass true, s.body, .subclass⟩
      exact congrArg (fun t : Tracker => { t.step (·.leaveClass true) with owner := s.owner })
        (ih _ (.tail _ (.head _)) inside)
    | .function kind (.mk _ _ params _) =>
      let inside : Tracker := ⟨enterFunction params s.toWalk, kind, s.owner⟩
      exact congrArg (fun t : Tracker => { t.step (·.leave) with body := s.body }) (ih _ (.head _) inside)

end Scope

end Lox
