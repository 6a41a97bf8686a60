import Lox.Proofs.Scope.Walks

/-!
  Sites of a program.

  The evaluator meets a phrase far from the walk that has resolved it.  A site keeps both together: it is a
  phrase with what the walk knows when it comes to it (`Visit`), and with the layers around it, the scopes that
  are open there, each as it is when the walk leaves it.

  `Part` is how the walk goes from a phrase to the phrases directly in it, one constructor for each, and
  `Visited` the sites that it comes to from a program.  A layer knows which phrase has opened it: that is what
  a frame of the running program is compared with, since a closure is made at the site of its declaration and
  called with the layers of that site around it.

  The layers are whole: they have also the names that are declared behind the site.  What is known of them as
  far as the walk has come is `Covers`.
-/

namespace Lox.Scope

/-! ## Layers -/

/-- What the walk comes to, and what it knows there. -/
structure Visit where
  ctx : Context
  walk : Walk
  phrase : Phrase

/-- The walk behind the phrase. -/
def Visit.after (v : Visit) : Walk := v.phrase.walk v.ctx v.walk

/-- What a scope is there for. -/
inductive LayerKind where
  /-- The names of a block or of a function. -/
  | body
  /-- The instance on which a method runs. -/
  | this
  /-- The superclass of a class. -/
  | super

/-- A scope of a program. -/
structure Layer where
  kind : LayerKind
  /-- The phrase that opens the scope, as the walk comes to it. -/
  opener : Visit
  /-- The scope with all its names, as it is when the walk leaves it. -/
  scope : Scope

/-- The one name of a layer around methods. -/
def LayerKind.own? : LayerKind → Option String
  | body => none
  | this => some "this"
  | super => some "super"

/-- A layer of the kind may have the name. -/
def LayerKind.Allows (kind : LayerKind) (name : String) : Prop :=
  match kind.own? with
  | none => name ≠ "this" ∧ name ≠ "super"
  | some own => name = own

/-- The layer of a block. -/
def blockLayer (ctx : Context) (w : Walk) (body : List Stmt) : Layer where
  kind := .body
  opener := ⟨ctx, w, .stmt (.block body)⟩
  scope := (walkStmts ctx body w.enter).scopes.headD .empty

/-- The walk that has come to the body of a function. -/
def enterFunction (params : List Token) (w : Walk) : Walk :=
  params.foldl (fun w param => w.bind param) w.enter

/-- The layer of a function. -/
def functionLayer (ctx : Context) (w : Walk) (kind : BodyKind) (d : FunctionDecl) : Layer where
  kind := .body
  opener := ⟨ctx, w, .function kind d⟩
  scope := (walkStmts ⟨kind, ctx.owner⟩ d.body (enterFunction d.params w)).scopes.headD .empty

/-- The layer that holds the instance on which the methods of a class run. -/
def thisLayer (opener : Visit) : Layer := ⟨.this, opener, Table.empty.insert "this" .defined⟩

/-- The layer that holds the superclass of a class. -/
def superLayer (opener : Visit) : Layer := ⟨.super, opener, Table.empty.insert "super" .defined⟩

/-- The layers around the methods of a class, innermost first. -/
def classLayers (opener : Visit) (extending : Bool) : List Layer :=
  thisLayer opener :: if extending then [superLayer opener] else []

/-- What surrounds the methods of a class that extends another one, or none. -/
def classContext (ctx : Context) (extending : Bool) : Context :=
  ⟨ctx.body, if extending then .subclass else .plain⟩

/-- The walk that has come to the superclass of a class and gone on behind it. -/
def enterHeader (name : Token) (superclass : Option Ref) (w : Walk) : Walk :=
  superclass.elim (w.bind name) fun ref => (w.bind name).useSuperclass name ref

/-! ## Sites -/

/-- A phrase, what the walk knows when it comes to it, and the layers around it. -/
structure Site extends Visit where
  layers : List Layer

/-- The second site is one that the walk comes to directly from the first. -/
inductive Part : Site → Site → Prop where
  | grouping {ctx w e ls} :
    Part ⟨⟨ctx, w, .expr (.grouping e)⟩, ls⟩ ⟨⟨ctx, w, .expr e⟩, ls⟩
  | operand {ctx w op e ls} :
    Part ⟨⟨ctx, w, .expr (.unary op e)⟩, ls⟩ ⟨⟨ctx, w, .expr e⟩, ls⟩
  | left {ctx w l op r ls} :
    Part ⟨⟨ctx, w, .expr (.binary l op r)⟩, ls⟩ ⟨⟨ctx, w, .expr l⟩, ls⟩
  | right {ctx w l op r ls} :
    Part ⟨⟨ctx, w, .expr (.binary l op r)⟩, ls⟩ ⟨⟨ctx, walkExpr ctx l w, .expr r⟩, ls⟩
  | leftLogical {ctx w l op r ls} :
    Part ⟨⟨ctx, w, .expr (.logical l op r)⟩, ls⟩ ⟨⟨ctx, w, .expr l⟩, ls⟩
  | rightLogical {ctx w l op r ls} :
    Part ⟨⟨ctx, w, .expr (.logical l op r)⟩, ls⟩ ⟨⟨ctx, walkExpr ctx l w, .expr r⟩, ls⟩
  | condition {ctx w c t e ls} :
    Part ⟨⟨ctx, w, .expr (.ternary c t e)⟩, ls⟩ ⟨⟨ctx, w, .expr c⟩, ls⟩
  | thenValue {ctx w c t e ls} :
    Part ⟨⟨ctx, w, .expr (.ternary c t e)⟩, ls⟩ ⟨⟨ctx, walkExpr ctx c w, .expr t⟩, ls⟩
  | elseValue {ctx w c t e ls} :
    Part ⟨⟨ctx, w, .expr (.ternary c t e)⟩, ls⟩
      ⟨⟨ctx, walkExpr ctx t (walkExpr ctx c w), .expr e⟩, ls⟩
  | assigned {ctx w ref e ls} :
    Part ⟨⟨ctx, w, .expr (.assign ref e)⟩, ls⟩ ⟨⟨ctx, w, .expr e⟩, ls⟩
  | callee {ctx w c paren es ls} :
    Part ⟨⟨ctx, w, .expr (.call c paren es)⟩, ls⟩ ⟨⟨ctx, w, .expr c⟩, ls⟩
  | arguments {ctx w c paren es ls} :
    Part ⟨⟨ctx, w, .expr (.call c paren es)⟩, ls⟩ ⟨⟨ctx, walkExpr ctx c w, .exprs es⟩, ls⟩
  | object {ctx w o name ls} :
    Part ⟨⟨ctx, w, .expr (.get o name)⟩, ls⟩ ⟨⟨ctx, w, .expr o⟩, ls⟩
  | target {ctx w o name e ls} :
    Part ⟨⟨ctx, w, .expr (.set o name e)⟩, ls⟩ ⟨⟨ctx, w, .expr o⟩, ls⟩
  | field {ctx w o name e ls} :
    Part ⟨⟨ctx, w, .expr (.set o name e)⟩, ls⟩ ⟨⟨ctx, walkExpr ctx o w, .expr e⟩, ls⟩
  | lambda {ctx w d ls} :
    Part ⟨⟨ctx, w, .expr (.lambda d)⟩, ls⟩ ⟨⟨ctx, w, .function .function d⟩, ls⟩
  | firstExpr {ctx w e es ls} :
    Part ⟨⟨ctx, w, .exprs (e :: es)⟩, ls⟩ ⟨⟨ctx, w, .expr e⟩, ls⟩
  | otherExprs {ctx w e es ls} :
    Part ⟨⟨ctx, w, .exprs (e :: es)⟩, ls⟩ ⟨⟨ctx, walkExpr ctx e w, .exprs es⟩, ls⟩
  | expression {ctx w e ls} :
    Part ⟨⟨ctx, w, .stmt (.expression e)⟩, ls⟩ ⟨⟨ctx, w, .expr e⟩, ls⟩
  | value {ctx w e ls} :
    Part ⟨⟨ctx, w, .stmt (.value e)⟩, ls⟩ ⟨⟨ctx, w, .expr e⟩, ls⟩
  | initializer {ctx w name e ls} :
    Part ⟨⟨ctx, w, .stmt (.varDecl name (some e))⟩, ls⟩ ⟨⟨ctx, w.declare name, .expr e⟩, ls⟩
  | block {ctx w ss ls} :
    Part ⟨⟨ctx, w, .stmt (.block ss)⟩, ls⟩ ⟨⟨ctx, w.enter, .stmts ss⟩, blockLayer ctx w ss :: ls⟩
  | decision {ctx w c t e ls} :
    Part ⟨⟨ctx, w, .stmt (.ifElse c t e)⟩, ls⟩ ⟨⟨ctx, w, .expr c⟩, ls⟩
  | thenBranch {ctx w c t e ls} :
    Part ⟨⟨ctx, w, .stmt (.ifElse c t e)⟩, ls⟩ ⟨⟨ctx, walkExpr ctx c w, .stmt t⟩, ls⟩
  | elseBranch {ctx w c t e ls} :
    Part ⟨⟨ctx, w, .stmt (.ifElse c t (some e))⟩, ls⟩
      ⟨⟨ctx, walkStmt ctx t (walkExpr ctx c w), .stmt e⟩, ls⟩
  | test {ctx w c b ls} :
    Part ⟨⟨ctx, w, .stmt (.whileLoop c b)⟩, ls⟩ ⟨⟨ctx, w, .expr c⟩, ls⟩
  | round {ctx w c b ls} :
    Part ⟨⟨ctx, w, .stmt (.whileLoop c b)⟩, ls⟩ ⟨⟨ctx, walkExpr ctx c w, .stmt b⟩, ls⟩
  | declared {ctx w d ls} :
    Part ⟨⟨ctx, w, .stmt (.funcDecl d)⟩, ls⟩
      ⟨⟨ctx, d.name.elim w w.bind, .function .function d⟩, ls⟩
  | members {ctx w name superclass ds ls} :
    Part ⟨⟨ctx, w, .stmt (.classDecl name superclass ds)⟩, ls⟩
      ⟨⟨classContext ctx superclass.isSome,
        (enterHeader name superclass w).enterClass superclass.isSome, .methods ds⟩,
        classLayers ⟨ctx, w, .stmt (.classDecl name superclass ds)⟩ superclass.isSome ++ ls⟩
  | returned {ctx w keyword e ls} :
    Part ⟨⟨ctx, w, .stmt (.returnValue keyword (some e))⟩, ls⟩
      ⟨⟨ctx, w.checkReturn ctx.body keyword true, .expr e⟩, ls⟩
  | firstStmt {ctx w s ss ls} :
    Part ⟨⟨ctx, w, .stmts (s :: ss)⟩, ls⟩ ⟨⟨ctx, w, .stmt s⟩, ls⟩
  | otherStmts {ctx w s ss ls} :
    Part ⟨⟨ctx, w, .stmts (s :: ss)⟩, ls⟩ ⟨⟨ctx, walkStmt ctx s w, .stmts ss⟩, ls⟩
  | body {ctx w kind d ls} :
    Part ⟨⟨ctx, w, .function kind d⟩, ls⟩
      ⟨⟨⟨kind, ctx.owner⟩, enterFunction d.params w, .stmts d.body⟩, functionLayer ctx w kind d :: ls⟩
  | firstMethod {ctx w d ds ls} :
    Part ⟨⟨ctx, w, .methods (d :: ds)⟩, ls⟩ ⟨⟨ctx, w, .function (methodKind d) d⟩, ls⟩
  | otherMethods {ctx w d ds ls} :
    Part ⟨⟨ctx, w, .methods (d :: ds)⟩, ls⟩
      ⟨⟨ctx, walkFunction ctx (methodKind d) d w, .methods ds⟩, ls⟩

/-- The site at which the walk over a program starts. -/
def Site.program (program : List Stmt) : Site := ⟨⟨.topLevel, .start, .stmts program⟩, []⟩

/-- The walk over a program comes to the site. -/
inductive Visited (program : List Stmt) : Site → Prop where
  | program : Visited program (.program program)
  | part {p q : Site} : Visited program p → Part p q → Visited program q

end Lox.Scope
