import Lox.Eval

/-!
  Laws of all runs.

  Programs are run by sequences of small steps: a part of the machine is read, a slot of a frame is read or
  written, the store makes something, a native function is called, an error ends the run.  A law that holds of
  these steps, and passes through sequences and through changes of the current frames, holds of everything that
  the evaluator does.

  * `Steps P` lists the small steps of which the law has to hold.  From it follow those that the evaluator puts
    together from them, one lemma for each: looking up names, binding methods, finding properties, answering a
    call.
  * Statements may declare names in the current frame, which expressions cannot.  So there may be two laws, a
    strict one of expressions and calls and a looser one of statements, as long as what runs in a frame of its
    own by the loose law keeps the strict one (`Tiers`).
  * `Tiers.rules` is the one induction on the fuel, and `Rules` lists what it gives: one field for each function
    of the evaluator.  A law of everything is the case where the two are one (`Closed.rules`).

  Who wants a new invariant of runs shows the small steps of it and is done; the modules on growth, on what is
  kept and on running forward are made in this way.
-/

namespace Lox.Eval

open Machine

/-- The law holds of the small steps that declare no names, and passes through sequences. -/
structure Steps (P : {α : Type} → Eval α → Prop) : Prop where
  pure : ∀ {α : Type} (a : α), P (pure a : Eval α)
  bind : ∀ {α β : Type} {x : Eval α} {f : α → Eval β}, P x → (∀ a, P (f a)) → P (x >>= f)
  outOfFuel : ∀ {α : Type}, P (.outOfFuel : Eval α)
  read : ∀ {α : Type} (view : Machine → α), P (.read view : Eval α)
  failAt : ∀ {α : Type} token fault, P (failAt token fault : Eval α)
  get : ∀ token frame name, P (atToken token (Store.get frame name))
  assign : ∀ token frame name value, P (atToken token (Store.assign frame name value))
  push : ∀ env frame, P (make (Store.push env frame))
  newObject : P (make Store.newObject)
  newIdentity : P (make Store.newIdentity)
  setField : ∀ object name value, P (setField object name value)
  callNative : ∀ token native given, P (callNative token native given)

/-- The law holds of all the small steps and passes through every way to put them together. -/
structure Closed (P : {α : Type} → Eval α → Prop) : Prop extends Steps P where
  define : ∀ token frame name slot, P (atToken token (Store.define frame name slot))
  within : ∀ {α : Type} env {x : Eval α}, P x → P (within env x)

/-- The strict law is kept by expressions and calls, the loose one by statements: names may be declared
    in the current frame, and what runs in a new frame by the loose law keeps the law around it. -/
structure Tiers (P Q : {α : Type} → Eval α → Prop) : Prop where
  strict : Steps P
  loose : Steps Q
  loosen : ∀ {α : Type} {x : Eval α}, P x → Q x
  define : ∀ name slot, Q (Machine.define name slot)
  block : ∀ {α : Type} {x : Eval α}, Q x →
    Q (.read Machine.env >>= fun env => make (Store.push env .empty) >>= fun inner => within inner x)
  call : ∀ (closure : Closure) (given : List Value) {α β : Type} {x : Eval α} {f : α → Eval β}, Q x →
    (∀ a, P (f a)) →
    P (make (Store.push closure.env .empty) >>= fun env =>
      defineParams env.frame closure.declaration.params given >>= fun _ => within env x >>= f)

/-- With so much fuel the one law holds of all that is done in expressions, the other of all that is
    done in statements. -/
structure TieredRules (P Q : {α : Type} → Eval α → Prop) (fuel : Nat) : Prop where
  evaluate : ∀ e, P (evaluate fuel e)
  evaluateAll : ∀ es, P (evaluateAll fuel es)
  call : ∀ function paren given, P (call fuel function paren given)
  callClosure : ∀ closure given, P (callClosure fuel closure given)
  execute : ∀ s, Q (execute fuel s)
  executeAll : ∀ ss, Q (executeAll fuel ss)

/-- The law holds of all that is done with so much fuel. -/
abbrev Rules (P : {α : Type} → Eval α → Prop) (fuel : Nat) : Prop := TieredRules P P fuel

/-- What follows from the laws holds where they hold. -/
theorem TieredRules.imp {P Q P' Q' : {α : Type} → Eval α → Prop} {fuel : Nat}
    (h : TieredRules P Q fuel) (hp : ∀ {α : Type} {x : Eval α}, P x → P' x)
    (hq : ∀ {α : Type} {x : Eval α}, Q x → Q' x) : TieredRules P' Q' fuel where
  evaluate e := hp (h.evaluate e)
  evaluateAll es := hp (h.evaluateAll es)
  call function paren given := hp (h.call function paren given)
  callClosure closure given := hp (h.callClosure closure given)
  execute s := hq (h.execute s)
  executeAll ss := hq (h.executeAll ss)

namespace Steps

variable {P : {α : Type} → Eval α → Prop} (h : Steps P)
include h

/-! ## The steps of the machine -/

/-- What is made of a result. -/
theorem map {α β : Type} {x : Eval α} (f : α → β) (hx : P x) : P (f <$> x) := by
  rw [map_eq_pure_bind]
  exact h.bind hx fun a => h.pure (f a)

/-- A result that may be a fault. -/
theorem liftAt {α : Type} (token : Token) (r : Except RuntimeFault α) : P (liftAt token r) := by
  cases r with
  | ok a => exact h.pure a
  | error fault => exact h.failAt token fault

/-- Looking a name up at a distance reads one frame, or fails for want of one. -/
theorem getAt (token : Token) (env : Env) (distance : Nat) (name : String) :
    P (atToken token (Store.getAt env distance name)) := by
  unfold Store.getAt Store.ancestor
  cases env.ancestor? distance with
  | some frame => exact h.get token frame name
  | none => exact h.failAt token .noEnclosingScope

theorem assignAt (token : Token) (env : Env) (distance : Nat) (name : String) (value : Value) :
    P (atToken token (Store.assignAt env distance name value)) := by
  unfold Store.assignAt Store.ancestor
  cases env.ancestor? distance with
  | some frame => exact h.assign token frame name value
  | none => exact h.failAt token .noEnclosingScope

/-- With a distance the name is read there, else from the globals. -/
theorem lookUp (ref : Ref) : P (lookUp ref) := by
  refine h.bind (h.read _) fun env => h.bind (h.read _) fun distance => ?_
  cases distance with
  | some distance => exact h.getAt _ _ _ _
  | none => exact h.get _ _ _

/-- The same for an assignment. -/
theorem assignTo (ref : Ref) (value : Value) : P (Machine.assign ref value) := by
  refine h.bind (h.read _) fun env => h.bind (h.read _) fun distance => ?_
  cases distance with
  | some distance => exact h.assignAt _ _ _ _ _
  | none => exact h.assign _ _ _ _

/-- A function value has a new number. -/
theorem functionValue (closure : Closure) : P (functionValue closure) :=
  h.bind h.newIdentity fun _ => h.pure _

/-- A method is bound in a new frame. -/
theorem bindThis (method : Closure) (this : Value) : P (bindThis method this) :=
  h.bind (h.push _ _) fun _ => h.pure _

/-- A field, or a method that is bound, or a fault. -/
theorem getProperty (value : Value) (name : Token) : P (getProperty value name) := by
  cases value with
  | object identity c =>
    refine h.bind (h.read _) fun field => ?_
    cases field with
    | some field => exact h.pure field
    | none =>
      cases c.method? name.lexeme with
      | none => exact h.failAt _ _
      | some method =>
        dsimp only
        split
        · exact h.failAt _ _
        · exact h.bind (h.bindThis _ _) fun _ => h.functionValue _
  | _ => exact h.failAt _ _

/-- The superclass and the instance are read, and the method is bound. -/
theorem superMethod (ref : Ref) (method : Token) : P (superMethod ref method) := by
  refine h.bind (h.read _) fun env => h.bind (h.read _) fun distance => ?_
  cases distance with
  | none => exact h.failAt _ _
  | some distance =>
    refine h.bind (h.getAt _ _ _ _) fun superclass => ?_
    cases superclass with
    | classOf c =>
      refine h.bind (h.getAt _ _ _ _) fun this => ?_
      cases this with
      | object identity d =>
        dsimp only
        cases c.method? method.lexeme with
        | some found => exact h.bind (h.bindThis _ _) fun _ => h.functionValue _
        | none => exact h.failAt _ _
      | _ => exact h.failAt _ _
    | _ => exact h.failAt _ _

/-- A variable is read, and has to be a class. -/
theorem superclassOf (ref : Ref) : P (superclassOf ref) := by
  refine h.bind (h.lookUp ref) fun value => ?_
  cases value with
  | classOf c => exact h.pure c
  | _ => exact h.failAt _ _

/-- An initializer answers with its instance. -/
theorem answer (closure : Closure) (completion : Completion) : P (answer closure completion) := by
  unfold Eval.answer
  split
  · exact h.get _ _ _
  · cases completion <;> exact h.pure _

/-- A value that may be left out. -/
theorem optional {value : Expr → Eval Value} (hv : ∀ e, P (value e)) (e : Option Expr) :
    P (optional value e) := by
  cases e with
  | none => exact h.pure none
  | some e => exact h.map some (hv e)

end Steps

namespace Tiers

variable {P Q : {α : Type} → Eval α → Prop} (h : Tiers P Q)
include h

/-- The superclass, the name, the frame around the methods, the class: one after the other. -/
theorem declareClass (name : Token) (superclass : Option Ref) (methods : List FunctionDecl) :
    Q (declareClass name superclass methods) := by
  have hq := h.loose
  have hparent : Q (superclass.elim (Pure.pure none) fun ref => some <$> Machine.superclassOf ref) := by
    cases superclass with
    | none => exact hq.pure none
    | some ref => exact hq.map some (hq.superclassOf ref)
  refine hq.bind hparent fun parent => hq.bind (h.define _ _) fun _ => hq.bind (hq.read _) fun env => ?_
  have haround : Q (aroundMethods env parent) := by
    cases parent with
    | none => exact hq.pure env
    | some c => exact hq.push _ _
  exact hq.bind haround fun _ => hq.bind hq.newIdentity fun _ => hq.assign _ _ _ _

/-! ## The rules

  A property of actions that is closed under the steps holds of the whole evaluator, with whatever fuel. -/

/-- Of each rule its law holds with more fuel if the laws hold of all rules with less. -/
theorem rules_succ {fuel : Nat} (ih : TieredRules P Q fuel) : TieredRules P Q (fuel + 1) where
  -- Expressions keep the strict law: whatever they call does.
  evaluate e := by
    have hp := h.strict
    cases e with
    | literal value => exact hp.pure _
    | grouping inner => exact ih.evaluate inner
    | unary operator right => exact hp.bind (ih.evaluate right) fun _ => hp.liftAt _ _
    | binary left operator right =>
      exact hp.bind (ih.evaluate left) fun _ => hp.bind (ih.evaluate right) fun _ => hp.liftAt _ _
    | logical left operator right =>
      refine hp.bind (ih.evaluate left) fun a => ?_
      split
      · exact hp.pure a
      · exact ih.evaluate right
    | ternary condition thenBranch elseBranch =>
      refine hp.bind (ih.evaluate condition) fun value => ?_
      split
      · exact ih.evaluate thenBranch
      · exact ih.evaluate elseBranch
    | «variable» ref => exact hp.lookUp ref
    | assign ref value =>
      exact hp.bind (ih.evaluate value) fun v => hp.bind (hp.assignTo ref v) fun _ => hp.pure v
    | call callee paren arguments =>
      exact hp.bind (ih.evaluate callee) fun function => hp.bind (ih.evaluateAll arguments) fun given =>
        ih.call function paren given
    | get object name => exact hp.bind (ih.evaluate object) fun value => hp.getProperty value name
    | set object name value =>
      refine hp.bind (ih.evaluate object) fun o => ?_
      cases o with
      | object identity c =>
        exact hp.bind (ih.evaluate value) fun v => hp.bind (hp.setField _ _ _) fun _ => hp.pure v
      | _ => exact hp.failAt _ _
    | lambda declaration => exact hp.bind (hp.read _) fun _ => hp.functionValue _
    | this ref => exact hp.lookUp ref
    | super ref method => exact hp.superMethod ref method
  evaluateAll es := by
    have hp := h.strict
    cases es with
    | nil => exact hp.pure []
    | cons e rest =>
      exact hp.bind (ih.evaluate e) fun _ => hp.bind (ih.evaluateAll rest) fun _ => hp.pure _
  call function paren given := by
    have hp := h.strict
    cases function with
    | native native => exact hp.callNative paren native given
    | function identity closure => exact ih.callClosure closure given
    | classOf c =>
      refine hp.bind hp.newObject fun identity => ?_
      dsimp only
      cases c.method? "init" with
      | none => exact hp.pure _
      | some init =>
        exact hp.bind (hp.bindThis _ _) fun ready => hp.bind (ih.callClosure ready given) fun _ =>
          hp.pure _
    | _ => exact hp.failAt _ _
  callClosure closure given :=
    h.call closure given (ih.executeAll _) fun _ => h.strict.answer _ _
  -- Statements keep the loose one, and the expressions in them the strict one, which is more.
  execute s := by
    have hq := h.loose
    have value : ∀ e, Q (Eval.evaluate fuel e) := fun e => h.loosen (ih.evaluate e)
    cases s with
    | expression e => exact hq.bind (value e) fun _ => hq.pure _
    | value e => exact hq.bind (value e) fun _ => hq.pure _
    | varDecl name initializer =>
      exact hq.bind (hq.optional value initializer) fun _ => hq.bind (h.define _ _) fun _ => hq.pure _
    | block body => exact h.block (ih.executeAll body)
    | ifElse condition thenBranch elseBranch =>
      refine hq.bind (value condition) fun _ => ?_
      split
      · exact ih.execute thenBranch
      · cases elseBranch with
        | none => exact hq.pure _
        | some branch => exact ih.execute branch
    | whileLoop condition body =>
      refine hq.bind (value condition) fun _ => ?_
      split
      · refine hq.bind (ih.execute body) fun completion => ?_
        cases completion with
        | normal => exact ih.execute (.whileLoop condition body)
        | broke => exact hq.pure _
        | returned v => exact hq.pure _
      · exact hq.pure _
    | breakLoop keyword => exact hq.pure _
    | funcDecl declaration =>
      exact hq.bind (hq.read _) fun _ => hq.bind (hq.functionValue _) fun _ =>
        hq.bind (h.define _ _) fun _ => hq.pure _
    | classDecl name superclass methods =>
      exact hq.bind (h.declareClass name superclass methods) fun _ => hq.pure _
    | returnValue keyword e => exact hq.bind (hq.optional value e) fun _ => hq.pure _
  executeAll ss := by
    have hq := h.loose
    cases ss with
    | nil => exact hq.pure _
    | cons s rest =>
      refine hq.bind (ih.execute s) fun completion => ?_
      cases completion with
      | normal => exact ih.executeAll rest
      | broke => exact hq.pure _
      | returned v => exact hq.pure _

/-- **Two laws of the small steps are laws of all that the evaluator does.** -/
theorem rules (fuel : Nat) : TieredRules P Q fuel := by
  induction fuel with
  | zero =>
    constructor <;> intros
    all_goals first | exact h.strict.outOfFuel | exact h.loose.outOfFuel
  | succ fuel ih => exact h.rules_succ ih

end Tiers

namespace Closed

variable {P : {α : Type} → Eval α → Prop} (h : Closed P)
include h

/-- A name is declared in the current frame. -/
theorem defineHere (name : Token) (slot : Option Value) : P (Machine.define name slot) :=
  h.bind (h.read _) fun _ => h.define _ _ _ _

/-- By induction on the parameters. -/
theorem defineParams (frame : Nat) (params : List Token) (given : List Value) :
    P (defineParams frame params given) := by
  induction params generalizing given with
  | nil => cases given <;> exact h.pure ()
  | cons param params ih =>
    cases given with
    | nil => exact h.pure ()
    | cons value values => exact h.bind (h.define _ _ _ _) fun _ => ih values

/-- A law of everything is a strict and a loose one at once. -/
theorem tiers : Tiers P P where
  strict := h.toSteps
  loose := h.toSteps
  loosen := id
  define := h.defineHere
  block hx := h.bind (h.read _) fun _ => h.bind (h.push _ _) fun _ => h.within _ hx
  call _ _ _ _ _ _ hx hf :=
    h.bind (h.push _ _) fun _ => h.bind (h.defineParams _ _ _) fun _ => h.bind (h.within _ hx) hf

/-- **A law of the small steps is a law of all that the evaluator does.** -/
theorem rules (fuel : Nat) : Rules P fuel := h.tiers.rules fuel

/-- The law holds of whole programs. -/
theorem program (fuel : Nat) (ss : List Stmt) (last : Option Value) : P (runAll fuel ss last) := by
  induction ss generalizing last with
  | nil => exact h.pure last
  | cons s rest ih =>
    have hstmt : P (Eval.execute fuel s >>= fun _ => runAll fuel rest last) :=
      h.bind ((h.rules fuel).execute s) fun _ => ih last
    cases s with
    | value e => exact h.bind ((h.rules fuel).evaluate e) fun v => ih (some v)
    | _ => exact hstmt

end Closed

end Lox.Eval
