import Mathlib.Logic.Relation
import Lox.Eval
import Lox.Proofs.Scope.Sites

/-!
  Moments of a run.

  A moment is what the evaluator is about to do (`Activity`), on which machine and with how much fuel.  `Calls`
  is how it comes from one moment to those directly within it, one constructor for each place at which a
  function of the evaluator calls another: what has been done in between is done, and has led to the machine of
  the later moment.  A moment leads to another if it comes to it in any number of such steps (`Leads`), whether
  or not the run ever ends.

  With this one can speak of what happens in a run: an invariant that is kept by `Calls` holds at every moment,
  also of runs that do not end.

  Some moments matter later: those at which a frame is made for a scope of the program (`Made`), and those
  because of which a frame lacks a name that its scope has: the parameter of a call that got too few arguments
  (`Unsupplied`), a declaration that failed (`Abandoned`), one that has not come about yet (`Awaits`).
-/

namespace Lox

open Machine

/-- What the evaluator is about to do. -/
inductive Activity where
  | evaluate (e : Expr)
  | evaluateAll (es : List Expr)
  | call (function : Value) (paren : Token) (given : List Value)
  | callClosure (closure : Closure) (given : List Value)
  | execute (s : Stmt)
  | executeAll (ss : List Stmt)
  | program (ss : List Stmt) (last : Option Value)
  | lookUp (ref : Ref)
  | assign (ref : Ref) (value : Value)
  | bind (method : Closure) (this : Value)

/-- What the evaluator is about to do, and where it stands. -/
structure Moment where
  fuel : Nat
  activity : Activity
  machine : Machine

/-- The run from the moment on is ended by an error. -/
def Moment.Fails : Moment → RuntimeError → Prop
  | ⟨n, .evaluate e, m⟩, error => ∃ m', Eval.evaluate n e m = .failed error m'
  | ⟨n, .evaluateAll es, m⟩, error => ∃ m', Eval.evaluateAll n es m = .failed error m'
  | ⟨n, .call f paren given, m⟩, error => ∃ m', Eval.call n f paren given m = .failed error m'
  | ⟨n, .callClosure closure given, m⟩, error =>
    ∃ m', Eval.callClosure n closure given m = .failed error m'
  | ⟨n, .execute s, m⟩, error => ∃ m', Eval.execute n s m = .failed error m'
  | ⟨n, .executeAll ss, m⟩, error => ∃ m', Eval.executeAll n ss m = .failed error m'
  | ⟨n, .program ss last, m⟩, error => ∃ m', Eval.runAll n ss last m = .failed error m'
  | ⟨_, .lookUp ref, m⟩, error => ∃ m', Machine.lookUp ref m = .failed error m'
  | ⟨_, .assign ref value, m⟩, error => ∃ m', Machine.assign ref value m = .failed error m'
  | ⟨_, .bind method this, m⟩, error => ∃ m', bindThis method this m = .failed error m'

open Eval

/-- The evaluator comes from the first moment directly to the second. -/
inductive Calls : Moment → Moment → Prop where
  | grouping {n e m} : Calls ⟨n + 1, .evaluate (.grouping e), m⟩ ⟨n, .evaluate e, m⟩
  | operand {n op e m} : Calls ⟨n + 1, .evaluate (.unary op e), m⟩ ⟨n, .evaluate e, m⟩
  | left {n l op r m} : Calls ⟨n + 1, .evaluate (.binary l op r), m⟩ ⟨n, .evaluate l, m⟩
  | right {n l op r m v m'} : evaluate n l m = .done v m' →
    Calls ⟨n + 1, .evaluate (.binary l op r), m⟩ ⟨n, .evaluate r, m'⟩
  | leftLogical {n l op r m} : Calls ⟨n + 1, .evaluate (.logical l op r), m⟩ ⟨n, .evaluate l, m⟩
  | rightLogical {n l op r m v m'} : evaluate n l m = .done v m' →
    Operator.shortCircuits op.kind v = false →
    Calls ⟨n + 1, .evaluate (.logical l op r), m⟩ ⟨n, .evaluate r, m'⟩
  | condition {n c t e m} : Calls ⟨n + 1, .evaluate (.ternary c t e), m⟩ ⟨n, .evaluate c, m⟩
  | thenValue {n c t e m v m'} : evaluate n c m = .done v m' → v.truthy = true →
    Calls ⟨n + 1, .evaluate (.ternary c t e), m⟩ ⟨n, .evaluate t, m'⟩
  | elseValue {n c t e m v m'} : evaluate n c m = .done v m' → v.truthy = false →
    Calls ⟨n + 1, .evaluate (.ternary c t e), m⟩ ⟨n, .evaluate e, m'⟩
  | variable {n ref m} : Calls ⟨n + 1, .evaluate (.variable ref), m⟩ ⟨n, .lookUp ref, m⟩
  | this {n ref m} : Calls ⟨n + 1, .evaluate (.this ref), m⟩ ⟨n, .lookUp ref, m⟩
  | assigned {n ref e m} : Calls ⟨n + 1, .evaluate (.assign ref e), m⟩ ⟨n, .evaluate e, m⟩
  | assigns {n ref e m v m'} : evaluate n e m = .done v m' →
    Calls ⟨n + 1, .evaluate (.assign ref e), m⟩ ⟨n, .assign ref v, m'⟩
  | callee {n c paren es m} : Calls ⟨n + 1, .evaluate (.call c paren es), m⟩ ⟨n, .evaluate c, m⟩
  | arguments {n c paren es m v m'} : evaluate n c m = .done v m' →
    Calls ⟨n + 1, .evaluate (.call c paren es), m⟩ ⟨n, .evaluateAll es, m'⟩
  | call {n c paren es m v m' vs m''} : evaluate n c m = .done v m' →
    evaluateAll n es m' = .done vs m'' →
    Calls ⟨n + 1, .evaluate (.call c paren es), m⟩ ⟨n, .call v paren vs, m''⟩
  | object {n o name m} : Calls ⟨n + 1, .evaluate (.get o name), m⟩ ⟨n, .evaluate o, m⟩
  | method {n o name m id c m' found} : evaluate n o m = .done (.object id c) m' →
    m'.store.field? id name.lexeme = none → c.method? name.lexeme = some found →
    name.lexeme ≠ "init" →
    Calls ⟨n + 1, .evaluate (.get o name), m⟩ ⟨n, .bind found (.object id c), m'⟩
  | target {n o name e m} : Calls ⟨n + 1, .evaluate (.set o name e), m⟩ ⟨n, .evaluate o, m⟩
  | field {n o name e m id c m'} : evaluate n o m = .done (.object id c) m' →
    Calls ⟨n + 1, .evaluate (.set o name e), m⟩ ⟨n, .evaluate e, m'⟩
  | superMethod {n ref method m d c id c' found s s'} : m.resolution[ref.id]? = some d →
    Store.getAt m.env d ref.name.lexeme m.store = .done (.classOf c) s →
    Store.getAt m.env (d - 1) "this" m.store = .done (.object id c') s' →
    c.method? method.lexeme = some found →
    Calls ⟨n + 1, .evaluate (.super ref method), m⟩ ⟨n, .bind found (.object id c'), m⟩
  | firstExpr {n e es m} : Calls ⟨n + 1, .evaluateAll (e :: es), m⟩ ⟨n, .evaluate e, m⟩
  | otherExprs {n e es m v m'} : evaluate n e m = .done v m' →
    Calls ⟨n + 1, .evaluateAll (e :: es), m⟩ ⟨n, .evaluateAll es, m'⟩
  | closure {n id closure paren given m} :
    Calls ⟨n + 1, .call (.function id closure) paren given, m⟩ ⟨n, .callClosure closure given, m⟩
  | created {n c paren given m id m' init} : make Store.newObject m = .done id m' →
    c.method? "init" = some init →
    Calls ⟨n + 1, .call (.classOf c) paren given, m⟩ ⟨n, .bind init (.object id c), m'⟩
  | initializes {n c paren given m id m' init ready m''} : make Store.newObject m = .done id m' →
    c.method? "init" = some init → bindThis init (.object id c) m' = .done ready m'' →
    Calls ⟨n + 1, .call (.classOf c) paren given, m⟩ ⟨n, .callClosure ready given, m''⟩
  | body {n closure given m env m' m''} : make (Store.push closure.env .empty) m = .done env m' →
    defineParams env.frame closure.declaration.params given m' = .done () m'' →
    Calls ⟨n + 1, .callClosure closure given, m⟩
      ⟨n, .executeAll closure.declaration.body, { m'' with env := env }⟩
  | expression {n e m} : Calls ⟨n + 1, .execute (.expression e), m⟩ ⟨n, .evaluate e, m⟩
  | value {n e m} : Calls ⟨n + 1, .execute (.value e), m⟩ ⟨n, .evaluate e, m⟩
  | initializer {n name e m} :
    Calls ⟨n + 1, .execute (.varDecl name (some e)), m⟩ ⟨n, .evaluate e, m⟩
  | block {n ss m env m'} : make (Store.push m.env .empty) m = .done env m' →
    Calls ⟨n + 1, .execute (.block ss), m⟩ ⟨n, .executeAll ss, { m' with env := env }⟩
  | decision {n c t e m} : Calls ⟨n + 1, .execute (.ifElse c t e), m⟩ ⟨n, .evaluate c, m⟩
  | thenBranch {n c t e m v m'} : evaluate n c m = .done v m' → v.truthy = true →
    Calls ⟨n + 1, .execute (.ifElse c t e), m⟩ ⟨n, .execute t, m'⟩
  | elseBranch {n c t e m v m'} : evaluate n c m = .done v m' → v.truthy = false →
    Calls ⟨n + 1, .execute (.ifElse c t (some e)), m⟩ ⟨n, .execute e, m'⟩
  | test {n c b m} : Calls ⟨n + 1, .execute (.whileLoop c b), m⟩ ⟨n, .evaluate c, m⟩
  | round {n c b m v m'} : evaluate n c m = .done v m' → v.truthy = true →
    Calls ⟨n + 1, .execute (.whileLoop c b), m⟩ ⟨n, .execute b, m'⟩
  | again {n c b m v m' m''} : evaluate n c m = .done v m' → v.truthy = true →
    execute n b m' = .done .normal m'' →
    Calls ⟨n + 1, .execute (.whileLoop c b), m⟩ ⟨n, .execute (.whileLoop c b), m''⟩
  | superclass {n name ref ds m} :
    Calls ⟨n + 1, .execute (.classDecl name (some ref) ds), m⟩ ⟨n, .lookUp ref, m⟩
  | returned {n keyword e m} :
    Calls ⟨n + 1, .execute (.returnValue keyword (some e)), m⟩ ⟨n, .evaluate e, m⟩
  | firstStmt {n s ss m} : Calls ⟨n + 1, .executeAll (s :: ss), m⟩ ⟨n, .execute s, m⟩
  | otherStmts {n s ss m m'} : execute n s m = .done .normal m' →
    Calls ⟨n + 1, .executeAll (s :: ss), m⟩ ⟨n, .executeAll ss, m'⟩
  | shown {n e ss last m} : Calls ⟨n, .program (.value e :: ss) last, m⟩ ⟨n, .evaluate e, m⟩
  | behindShown {n e ss last m v m'} : evaluate n e m = .done v m' →
    Calls ⟨n, .program (.value e :: ss) last, m⟩ ⟨n, .program ss (some v), m'⟩
  | statement {n s ss last m} : (∀ e, s ≠ .value e) →
    Calls ⟨n, .program (s :: ss) last, m⟩ ⟨n, .execute s, m⟩
  | behindStatement {n s ss last m completion m'} : (∀ e, s ≠ .value e) →
    execute n s m = .done completion m' →
    Calls ⟨n, .program (s :: ss) last, m⟩ ⟨n, .program ss last, m'⟩

/-- The evaluator comes from the first moment to the second. -/
abbrev Moment.Leads : Moment → Moment → Prop := Relation.ReflTransGen Calls

/-! ## Frames -/

open Scope

/-- The frame was made, at one of the moments, for the scope of the layer: when the evaluator entered
    the block or the function that the layer is the scope of, when it declared the class that the layer
    holds the superclass of, or when it bound a method in the layer to its instance. -/
inductive Made (lived : Moment → Prop) (visited : Site → Prop) : Nat → Layer → Prop where
  | block {n ss m ctx w ls} : lived ⟨n + 1, .execute (.block ss), m⟩ →
    visited ⟨⟨ctx, w, .stmt (.block ss)⟩, ls⟩ →
    Made lived visited m.store.frames.size (blockLayer ctx w ss)
  | function {n closure given m ctx w kind ls} : lived ⟨n + 1, .callClosure closure given, m⟩ →
    visited ⟨⟨ctx, w, .function kind closure.declaration⟩, ls⟩ →
    Made lived visited m.store.frames.size (functionLayer ctx w kind closure.declaration)
  | super {n name ref ds m ctx w ls c m' m''} :
    lived ⟨n + 1, .execute (.classDecl name (some ref) ds), m⟩ →
    visited ⟨⟨ctx, w, .stmt (.classDecl name (some ref) ds)⟩, ls⟩ →
    superclassOf ref m = .done c m' → define name none m' = .done () m'' →
    Made lived visited m''.store.frames.size
      (superLayer ⟨ctx, w, .stmt (.classDecl name (some ref) ds)⟩)
  | this {n method v m ctx w kind layer ls} : lived ⟨n, .bind method v, m⟩ →
    visited ⟨⟨ctx, w, .function kind method.declaration⟩, layer :: ls⟩ → layer.kind = .this →
    Made lived visited m.store.frames.size layer

/-- The name is that of a parameter for which the call that made the frame had no argument. -/
inductive Unsupplied (lived : Moment → Prop) : Nat → String → Prop where
  | call {n closure given m param} : lived ⟨n + 1, .callClosure closure given, m⟩ →
    param ∈ closure.declaration.params.drop given.length →
    Unsupplied lived m.store.frames.size param.lexeme

/-- The name is that of a variable of the frame whose initializer was ended by an error. -/
inductive Abandoned (lived : Moment → Prop) : Nat → String → Prop where
  | initializer {n name e m error m'} : lived ⟨n + 1, .execute (.varDecl name (some e)), m⟩ →
    Eval.evaluate n e m = .failed error m' → Abandoned lived m.env.frame name.lexeme

/-- With more lives and more seen more has been made. -/
theorem Made.mono {lived lived' : Moment → Prop} {visited visited' : Site → Prop} {f : Nat}
    {layer : Layer} (h : Made lived visited f layer) (hl : ∀ μ, lived μ → lived' μ)
    (hv : ∀ p, visited p → visited' p) : Made lived' visited' f layer := by
  cases h with
  | block hμ hp => exact .block (hl _ hμ) (hv _ hp)
  | function hμ hp => exact .function (hl _ hμ) (hv _ hp)
  | super hμ hp hc hd => exact .super (hl _ hμ) (hv _ hp) hc hd
  | this hμ hp hk => exact .this (hl _ hμ) (hv _ hp) hk

/-- With more lives more names lack a value. -/
theorem Unsupplied.mono {lived lived' : Moment → Prop} {f : Nat} {x : String}
    (h : Unsupplied lived f x) (hl : ∀ μ, lived μ → lived' μ) : Unsupplied lived' f x := by
  cases h with
  | call hμ hp => exact .call (hl _ hμ) hp

/-- With more lives more declarations have been given up. -/
theorem Abandoned.mono {lived lived' : Moment → Prop} {f : Nat} {x : String}
    (h : Abandoned lived f x) (hl : ∀ μ, lived μ → lived' μ) : Abandoned lived' f x := by
  cases h with
  | initializer hμ hx => exact .initializer (hl _ hμ) hx

/-- The moment lies within the evaluation of the initializer of a variable of that name and frame. -/
def Moment.Awaits (start μ : Moment) (frame : Nat) (name : String) : Prop :=
  ∃ n token e m, start.Leads ⟨n + 1, .execute (.varDecl token (some e)), m⟩ ∧
    Moment.Leads ⟨n, .evaluate e, m⟩ μ ∧ m.env.frame = frame ∧ token.lexeme = name

end Lox
