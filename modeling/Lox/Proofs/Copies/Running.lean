import Lox.Eval
import Lox.Proofs.Copies.Agrees
import Lox.Proofs.Copies.Values

/-!
  Running copies.

  Copies of a program, run on machines that are alike, do the same: they end in the same way, with values
  that are alike or errors at tokens that stand for each other, on machines that are alike again.  The
  first run may also be given less fuel than the second, and is then allowed not to end.

  The proof goes as the evaluator does, rule by rule.

  1. **Steps on the store** (`StoreRuns`): what is defined, read and assigned in a frame or in one further
     out.
  2. **Steps on the machine** (`Runs`): the store's steps at a token (`atToken`), an occurrence that is
     looked up or assigned by its distance, functions, methods and classes that are made, and the end of a
     call.  An occurrence has the same distance as the one that stands for it, which is what makes the two
     machines look into the same frames.
  3. **The functions of the evaluator** (`evaluate_succ` and the others): with one unit of fuel more the
     runs agree if they do with less.  Each is a case analysis on what the copy is.
  4. `copied` is the induction on the fuel, and `runAll_copies` carries it over to programs.
-/

namespace Lox.Eval

open Machine

/-- On machines that are alike the actions end in the same way. -/
abbrev Runs (K : Likeness) (short : Prop) {α β : Type} (Q : α → β → Prop) (x : Eval α) (y : Eval β) :
    Prop :=
  Action.Agrees short (Machine.Like K) (RuntimeError.Like K) Q x y

/-- On stores that are alike the steps end in the same way. -/
abbrev StoreRuns (K : Likeness) (short : Prop) {α β : Type} (Q : α → β → Prop) (x : StoreStep α)
    (y : StoreStep β) : Prop :=
  Action.Agrees short (Store.Like K) (· = ·) Q x y

/-- The statements were completed in the same way. -/
inductive CompletionLike (K : Likeness) : Completion → Completion → Prop where
  | normal : CompletionLike K .normal .normal
  | broke : CompletionLike K .broke .broke
  | returned {v v'} : v.Like K v' → CompletionLike K (.returned v) (.returned v')

variable {K : Likeness} {short : Prop}

/-! ## Steps on the store

  A store is like another if it shows values that are alike in the same places; the steps keep this, since they
  are about places and never look at what functions are made of. -/

namespace StoreRuns

variable {slot slot' : Option Value} {v v' : Value}

/-- A name is defined where it is free, on both sides or on neither. -/
theorem define (frame : Nat) (name : String) (h : Option.Rel (Value.Like K) slot slot') :
    StoreRuns K short (fun _ _ => True) (Store.define frame name slot)
      (Store.define frame name slot') := by
  intro s s' hs
  have hslot := hs.slot? frame name
  unfold Store.define
  generalize s.slot? frame name = old, s'.slot? frame name = old' at hslot
  cases hslot with
  | none => exact .done trivial (hs.put frame name h)
  | some _ => exact .failed rfl hs

/-- A name without a slot or without a value fails on both sides. -/
theorem get (frame : Nat) (name : String) :
    StoreRuns K short (Value.Like K) (Store.get frame name) (Store.get frame name) := by
  intro s s' hs
  have hslot := hs.slot? frame name
  unfold Store.get
  generalize s.slot? frame name = slot, s'.slot? frame name = slot' at hslot
  cases hslot with
  | none => exact .failed rfl hs
  | some hslot =>
    cases hslot with
    | none => exact .failed rfl hs
    | some hv => exact .done hv hs

/-- A name that has no slot cannot be assigned on either side. -/
theorem assign (frame : Nat) (name : String) (h : v.Like K v') :
    StoreRuns K short (fun _ _ => True) (Store.assign frame name v) (Store.assign frame name v') := by
  intro s s' hs
  have hslot := hs.slot? frame name
  unfold Store.assign
  generalize s.slot? frame name = old, s'.slot? frame name = old' at hslot
  cases hslot with
  | none => exact .failed rfl hs
  | some _ => exact .done trivial (hs.put frame name (.some h))

/-- The frames further out are counted alike, since the chains are the same. -/
theorem ancestor (env : Env) (distance : Nat) :
    StoreRuns K short (· = ·) (Store.ancestor env distance) (Store.ancestor env distance) := by
  unfold Store.ancestor
  cases env.ancestor? distance with
  | some frame => exact .pure rfl
  | none => exact .fail rfl

/-- Reading at a distance. -/
theorem getAt (env : Env) (distance : Nat) (name : String) :
    StoreRuns K short (Value.Like K) (Store.getAt env distance name) (Store.getAt env distance name) := by
  refine (ancestor env distance).bind ?_
  rintro frame _ rfl
  exact get frame name

/-- Assigning at a distance. -/
theorem assignAt (env : Env) (distance : Nat) (name : String) (h : v.Like K v') :
    StoreRuns K short (fun _ _ => True) (Store.assignAt env distance name v)
      (Store.assignAt env distance name v') := by
  refine (ancestor env distance).bind ?_
  rintro frame _ rfl
  exact assign frame name h

end StoreRuns

/-! ## Steps on the machine

  Each step is at tokens that correspond, and looks distances up under numbers that do. -/

namespace Runs

variable {α β : Type} {Q : α → β → Prop} {t t' : Token}

/-- Both fail at tokens that stand for each other. -/
theorem failAt (ht : K.token t t') (fault : RuntimeFault) :
    Runs K short Q (failAt t fault) (failAt t' fault) :=
  .fail ⟨ht, rfl⟩

/-- A step on the store, which fails at the token if it fails. -/
theorem atToken (ht : K.token t t') {x : StoreStep α} {y : StoreStep β} (h : StoreRuns K short Q x y) :
    Runs K short Q (atToken t x) (atToken t' y) := by
  rintro ⟨s, env, found, host⟩ ⟨s', env', found', host'⟩ ⟨hs, henv, hhost, hfound⟩
  have hends := h s s' hs
  simp only [Machine.atToken]
  generalize x s = ending, y s' = ending' at hends ⊢
  cases hends with
  | done hq hs => exact .done hq ⟨hs, henv, hhost, hfound⟩
  | failed he hs =>
    cases he
    exact .failed ⟨ht, rfl⟩ ⟨hs, henv, hhost, hfound⟩
  | exhausted => exact .exhausted
  | short h => exact .short h

/-- Something is made anew in both stores. -/
theorem make {x : Store → α × Store} {y : Store → β × Store}
    (h : ∀ s s', s.Like K s' → Q (x s).1 (y s').1 ∧ (x s).2.Like K (y s').2) :
    Runs K short Q (make x) (make y) := by
  rintro ⟨s, env, found, host⟩ ⟨s', env', found', host'⟩ ⟨hs, henv, hhost, hfound⟩
  exact .done (h s s' hs).1 ⟨(h s s' hs).2, henv, hhost, hfound⟩

/-- A frame is put inside a chain, and has the same number on both sides. -/
theorem push (env : Env) {table table' : Table (Option Value)}
    (h : Table.Related (Option.Rel (Value.Like K)) table table') :
    Runs K short (· = ·) (Machine.make (Store.push env table)) (Machine.make (Store.push env table')) :=
  make fun _ _ hs => ⟨(hs.push env h).1.symm, (hs.push env h).2⟩

/-- Instances get the same numbers. -/
theorem newObject : Runs K short (· = ·) (Machine.make Store.newObject) (Machine.make Store.newObject) :=
  make fun _ _ hs => ⟨hs.newObject.1.symm, hs.newObject.2⟩

/-- Functions and classes get the same identities. -/
theorem newIdentity :
    Runs K short (· = ·) (Machine.make Store.newIdentity) (Machine.make Store.newIdentity) :=
  make fun _ _ hs => ⟨hs.newIdentity.1.symm, hs.newIdentity.2⟩

/-- The result of an operator, which fails at the token if it is a fault. -/
theorem liftAt (ht : K.token t t') {result result' : Except RuntimeFault Value}
    (h : ResultLike K result result') :
    Runs K short (Value.Like K) (liftAt t result) (liftAt t' result') := by
  cases h with
  | ok hv => exact .pure hv
  | error => exact failAt ht _

/-- The frames around the place are the same. -/
theorem env : Runs K short (· = ·) (.read Machine.env) (.read Machine.env) :=
  .read fun _ _ hm => hm.env.symm

/-- Whatever is run within other frames, the frames are put back behind it. -/
theorem within (env : Env) {x : Eval α} {y : Eval β} (h : Runs K short Q x y) :
    Runs K short Q (within env x) (within env y) := by
  refine .keeping (fun m n m' n' hm hm' => ⟨hm'.store, hm.env, hm'.host, hm'.resolution⟩) ?_
  have henter : Runs K short (fun _ _ => True) (.update fun m => { m with env := env })
      (.update fun m => { m with env := env }) :=
    .update fun _ _ hm => ⟨hm.store, rfl, hm.host, hm.resolution⟩
  exact henter.bind fun _ _ _ => h

variable {ref ref' : Ref} {v v' : Value}

/-- Occurrences that stand for each other have the same distance. -/
theorem distance? (h : K.Refs ref ref') :
    Runs K short (· = ·) (distance? ref) (distance? ref') :=
  .read fun _ _ hm => (hm.resolution _ _ h.number).symm

/-- So they are looked up in the same frame, or both among the globals. -/
theorem lookUp (h : K.Refs ref ref') : Runs K short (Value.Like K) (lookUp ref) (lookUp ref') := by
  have hlexeme := K.lexeme h.token
  refine env.bind ?_
  rintro env _ rfl
  refine (distance? h).bind ?_
  rintro distance _ rfl
  cases distance with
  | some distance => exact atToken h.token (hlexeme ▸ .getAt env distance _)
  | none => exact atToken h.token (hlexeme ▸ .get _ _)

/-- And assigned there. -/
theorem assign (h : K.Refs ref ref') (hv : v.Like K v') :
    Runs K short (fun _ _ => True) (assign ref v) (assign ref' v') := by
  have hlexeme := K.lexeme h.token
  refine env.bind ?_
  rintro env _ rfl
  refine (distance? h).bind ?_
  rintro distance _ rfl
  cases distance with
  | some distance => exact atToken h.token (hlexeme ▸ .assignAt env distance _ hv)
  | none => exact atToken h.token (hlexeme ▸ .assign _ _ hv)

/-- A declaration defines its name in the innermost frame. -/
theorem define (ht : K.token t t') {slot slot' : Option Value}
    (h : Option.Rel (Value.Like K) slot slot') :
    Runs K short (fun _ _ => True) (define t slot) (define t' slot') := by
  have hlexeme := K.lexeme ht
  refine env.bind ?_
  rintro env _ rfl
  exact atToken ht (hlexeme ▸ .define env.frame _ h)

/-! ### Functions and instances -/

variable {c c' : Closure}

/-- A function value has a new identity. -/
theorem functionValue (h : c.Like K c') :
    Runs K short (Value.Like K) (functionValue c) (functionValue c') := by
  refine newIdentity.bind ?_
  rintro identity _ rfl
  exact .pure (.function identity h)

/-- The frame of `this` around a method that is taken from an instance. -/
theorem bindThis (h : c.Like K c') (hv : v.Like K v') :
    Runs K short (Closure.Like K) (bindThis c v) (bindThis c' v') := by
  obtain ⟨d, around, isInitializer⟩ := c
  obtain ⟨d', around', isInitializer'⟩ := c'
  cases h.env
  refine (push around (Table.Related.empty.insert "this" (.some hv))).bind ?_
  rintro env _ rfl
  exact .pure ⟨h.declaration, rfl, h.isInitializer⟩

/-- A field hides a method of its name, and `init` is no property. -/
theorem getProperty (hv : v.Like K v') (ht : K.token t t') :
    Runs K short (Value.Like K) (getProperty v t) (getProperty v' t') := by
  have hlexeme := K.lexeme ht
  cases hv with
  | @object identity c c' hc =>
    refine Action.Agrees.bind (P := Option.Rel (Value.Like K))
      (.read fun m m' hm => hlexeme ▸ hm.store.field? identity _) fun field field' hfield => ?_
    -- Both have the field, or both look for the method.
    cases hfield with
    | some hfield => exact .pure hfield
    | none =>
      have hmethod : Option.Rel (Closure.Like K) (c.method? t.lexeme) (c'.method? t'.lexeme) :=
        hlexeme ▸ hc.method? t.lexeme
      dsimp only
      rw [hlexeme] at hmethod ⊢
      generalize c.method? t.lexeme = found, c'.method? t.lexeme = found' at hmethod
      cases hmethod with
      | none => exact failAt ht _
      | some hm =>
        dsimp only
        split
        · exact failAt ht _
        · exact (bindThis hm (.object identity hc)).bind fun _ _ hbound => functionValue hbound
  | _ => exact failAt ht _

/-- The field is set in the same instance. -/
theorem setField (object : Nat) (ht : K.token t t') (hv : v.Like K v') :
    Runs K short (fun _ _ => True) (setField object t v) (setField object t' v') := by
  refine .update fun m m' hm => ⟨?_, hm.env, hm.host, hm.resolution⟩
  rw [K.lexeme ht]
  exact hm.store.putField object t.lexeme hv

/-- The instance is looked for one frame further in than the class, since `this` is bound inside `super`. -/
theorem superMethod (h : K.Refs ref ref') (ht : K.token t t') :
    Runs K short (Value.Like K) (superMethod ref t) (superMethod ref' t') := by
  have hlexeme := K.lexeme h.token
  refine env.bind ?_
  rintro env _ rfl
  refine (distance? h).bind ?_
  rintro distance _ rfl
  cases distance with
  | none => exact failAt h.token _
  | some distance =>
    -- The superclass is looked up at the distance of `super`, the instance one frame further in.
    have hsuper : Runs K short (Value.Like K)
        (Machine.atToken ref.name (Store.getAt env distance ref.name.lexeme))
        (Machine.atToken ref'.name (Store.getAt env distance ref'.name.lexeme)) :=
      atToken h.token (hlexeme ▸ .getAt env distance _)
    have hthis : Runs K short (Value.Like K)
        (Machine.atToken (.named "this" ref.name.line) (Store.getAt env (distance - 1) "this"))
        (Machine.atToken (.named "this" ref'.name.line) (Store.getAt env (distance - 1) "this")) :=
      atToken (K.named h.token) (.getAt env _ _)
    refine hsuper.bind fun v v' hv => ?_
    cases hv with
    | @classOf c c' hc =>
      refine hthis.bind fun u u' hu => ?_
      cases hu with
      | @object identity d d' hd =>
        have hmethod := hc.method? t.lexeme
        dsimp only
        rw [K.lexeme ht]
        generalize c.method? t.lexeme = found, c'.method? t.lexeme = found' at hmethod
        cases hmethod with
        | none => exact failAt ht _
        | some hm => exact (bindThis hm (.object identity hd)).bind fun _ _ hbound => functionValue hbound
      | _ => exact failAt h.token _
    | _ => exact failAt h.token _

/-- Parameters take the values that are given, as far as there are any. -/
theorem defineParams (frame : Nat) {params params' : List Token} {given given' : List Value}
    (h : List.Forall₂ K.token params params') (hv : List.Forall₂ (Value.Like K) given given') :
    Runs K short (fun _ _ => True) (defineParams frame params given)
      (defineParams frame params' given') := by
  induction h generalizing given given' with
  | nil => cases hv <;> exact .pure trivial
  | @cons t t' _ _ ht _ ih =>
    cases hv with
    | nil => exact .pure trivial
    | cons hv hrest =>
      have hdefine : Runs K short (fun _ _ => True) _ _ :=
        atToken ht (.define frame t.lexeme (.some hv))
      rw [Machine.defineParams, Machine.defineParams, K.lexeme ht]
      exact hdefine.bind fun _ _ _ => ih hrest

/-- The value of the name has to be a class. -/
theorem superclassOf (h : K.Refs ref ref') :
    Runs K short (Class.Like K) (superclassOf ref) (superclassOf ref') := by
  refine (lookUp h).bind fun v v' hv => ?_
  cases hv with
  | classOf hc => exact .pure hc
  | _ => exact failAt h.token _

/-- Copies of methods make tables that are related. -/
theorem methodTable {ds ds' : List FunctionDecl} (h : Copy K (.methods ds) (.methods ds')) (env : Env) :
    Table.Related (Closure.Like K) (methodTable ds env) (methodTable ds' env) := by
  have hinsert : ∀ ds ds', Copy K (.methods ds) (.methods ds') → ∀ table table' : Table Closure,
      Table.Related (Closure.Like K) table table' → Table.Related (Closure.Like K)
        (ds.foldl (fun table d => table.insert d.displayName ⟨d, env, d.isInitializer⟩) table)
        (ds'.foldl (fun table d => table.insert d.displayName ⟨d, env, d.isInitializer⟩) table') := by
    intro ds
    induction ds with
    | nil =>
      intro ds' h table table' htable
      cases h
      exact htable
    | cons d ds ih =>
      intro ds' h table table' htable
      cases h with
      | methods hd hds =>
        refine ih _ hds _ _ ?_
        dsimp only
        rw [hd.displayName_eq]
        exact htable.insert _ ⟨hd.of_kind, rfl, hd.isInitializer_eq⟩
  exact hinsert ds ds' h _ _ .empty

/-- Where there is a superclass its frame is put around the methods. -/
theorem aroundMethods (env : Env) {parent parent' : Option Class}
    (h : Option.Rel (Class.Like K) parent parent') :
    Runs K short (· = ·) (aroundMethods env parent) (aroundMethods env parent') := by
  cases h with
  | none => exact .pure rfl
  | some hc => exact push env (Table.Related.empty.insert "super" (.some (.classOf hc)))

/-- The superclass is looked up first and the class assigned last, when its methods are known. -/
theorem declareClass (ht : K.token t t') {superclass superclass' : Option Ref}
    (h : Option.Rel K.Refs superclass superclass') {ds ds' : List FunctionDecl}
    (hds : Copy K (.methods ds) (.methods ds')) :
    Runs K short (fun _ _ => True) (declareClass t superclass ds) (declareClass t' superclass' ds') := by
  have hparent : Runs K short (Option.Rel (Class.Like K))
      (superclass.elim (Pure.pure none) fun ref => some <$> Machine.superclassOf ref)
      (superclass'.elim (Pure.pure none) fun ref => some <$> Machine.superclassOf ref) := by
    cases h with
    | none => exact .pure .none
    | some h => exact (superclassOf h).map fun _ _ hc => .some hc
  refine hparent.bind fun parent parent' hparents => (define ht .none).bind fun _ _ _ => env.bind ?_
  rintro env _ rfl
  refine (aroundMethods env hparents).bind ?_
  rintro around _ rfl
  refine newIdentity.bind ?_
  rintro identity _ rfl
  have hlexeme := K.lexeme ht
  -- The classes have the same identity, since identities are counted alike on both machines.
  have hclass : Class.Like K ⟨⟨identity, t.lexeme, Machine.methodTable ds around⟩, parent.elim [] Class.chain⟩
      ⟨⟨identity, t'.lexeme, Machine.methodTable ds' around⟩, parent'.elim [] Class.chain⟩ := by
    refine .cons ⟨rfl, hlexeme, methodTable hds around⟩ ?_
    cases hparents with
    | none => exact .nil
    | some hc => exact hc
  rw [hlexeme] at hclass ⊢
  exact atToken ht (.assign _ _ (.classOf hclass))

/-- A native function does the same, and leaves the same host behind. -/
theorem callNative (ht : K.token t t') (native : Native) {given given' : List Value}
    (h : List.Forall₂ (Value.Like K) given given') :
    Runs K short (Value.Like K) (callNative t native given) (callNative t' native given') := by
  rintro ⟨s, env, found, host⟩ ⟨s', env', found', host'⟩ ⟨hs, henv, hhost, hfound⟩
  cases hhost
  obtain ⟨hresult, hbehind⟩ := nativeAnswer_like h host native
  simp only [Machine.callNative]
  generalize nativeAnswer given host native = answer, nativeAnswer given' host native = answer'
    at hresult hbehind
  obtain ⟨result, host₁⟩ := answer
  obtain ⟨result', host₁'⟩ := answer'
  cases hbehind
  cases hresult with
  | ok hv => exact .done hv ⟨hs, henv, rfl, hfound⟩
  | error => exact .failed ⟨ht, rfl⟩ ⟨hs, henv, rfl, hfound⟩

/-- An initializer answers with its `this`, whatever it returned. -/
theorem answer (h : c.Like K c') {completion completion' : Completion}
    (hc : CompletionLike K completion completion') :
    Runs K short (Value.Like K) (answer c completion) (answer c' completion') := by
  unfold Eval.answer
  rw [h.isInitializer]
  split
  · rw [h.env]
    exact atToken (K.named h.declaration.function_keyword) (.get _ "this")
  · cases hc with
    | returned hv => exact .pure hv
    | _ => exact .pure .nil

end Runs

/-! ## The rules

  By induction on the fuel, one lemma for each function of the evaluator.  Fuel may differ between the sides if
  one of them is allowed to come to no answer (`short`). -/

/-- The second run has as much fuel as the first; or more, if the first may be short of it. -/
def Suffices (short : Prop) (fuel fuel' : Nat) : Prop := fuel = fuel' ∨ short ∧ fuel ≤ fuel'

/-- What the evaluator does with two amounts of fuel agrees, for all copies and all values that are
    alike. -/
structure Copied (K : Likeness) (short : Prop) (fuel fuel' : Nat) : Prop where
  evaluate : ∀ {e e'}, Copy K (.expr e) (.expr e') →
    Runs K short (Value.Like K) (evaluate fuel e) (evaluate fuel' e')
  evaluateAll : ∀ {es es'}, Copy K (.exprs es) (.exprs es') →
    Runs K short (List.Forall₂ (Value.Like K)) (evaluateAll fuel es) (evaluateAll fuel' es')
  call : ∀ {v v' paren paren' given given'}, v.Like K v' → K.token paren paren' →
    List.Forall₂ (Value.Like K) given given' →
    Runs K short (Value.Like K) (call fuel v paren given) (call fuel' v' paren' given')
  callClosure : ∀ {c c' given given'}, c.Like K c' → List.Forall₂ (Value.Like K) given given' →
    Runs K short (Value.Like K) (callClosure fuel c given) (callClosure fuel' c' given')
  execute : ∀ {s s'}, Copy K (.stmt s) (.stmt s') →
    Runs K short (CompletionLike K) (execute fuel s) (execute fuel' s')
  executeAll : ∀ {ss ss'}, Copy K (.stmts ss) (.stmts ss') →
    Runs K short (CompletionLike K) (executeAll fuel ss) (executeAll fuel' ss')

namespace Copied

variable {fuel fuel' : Nat}

/-- Expressions, by the form of the copy. -/
theorem evaluate_succ (ih : Copied K short fuel fuel') {e e' : Expr} (h : Copy K (.expr e) (.expr e')) :
    Runs K short (Value.Like K) (Eval.evaluate (fuel + 1) e) (Eval.evaluate (fuel' + 1) e') := by
  cases h with
  | literal => exact .pure (ofLiteral_like _)
  | grouping h => exact ih.evaluate h
  | unary hop h =>
    exact (ih.evaluate h).bind fun _ _ hv => K.kind hop ▸ Runs.liftAt hop (hv.unary _)
  | binary hl hop hr =>
    exact (ih.evaluate hl).bind fun _ _ ha => (ih.evaluate hr).bind fun _ _ hb =>
      K.kind hop ▸ Runs.liftAt hop (ha.binary _ hb)
  | logical hl hop hr =>
    refine (ih.evaluate hl).bind fun a a' ha => ?_
    -- What decides the branch does not depend on numbers, so the sides take the same one.
    rw [K.kind hop, ha.shortCircuits_eq]
    split
    · exact .pure ha
    · exact ih.evaluate hr
  | ternary hc ht he =>
    refine (ih.evaluate hc).bind fun a a' ha => ?_
    rw [ha.truthy_eq]
    split
    · exact ih.evaluate ht
    · exact ih.evaluate he
  | name href => exact Runs.lookUp href
  | assign href h =>
    exact (ih.evaluate h).bind fun _ _ hv => (Runs.assign href hv).bind fun _ _ _ => .pure hv
  | call hc hparen hes =>
    exact (ih.evaluate hc).bind fun _ _ hv => (ih.evaluateAll hes).bind fun _ _ hgiven =>
      ih.call hv hparen hgiven
  | get ho hname => exact (ih.evaluate ho).bind fun _ _ hv => Runs.getProperty hv hname
  | set ho hname he =>
    refine (ih.evaluate ho).bind fun v v' hv => ?_
    cases hv with
    | object identity _ =>
      exact (ih.evaluate he).bind fun _ _ hu => (Runs.setField identity hname hu).bind fun _ _ _ => .pure hu
    | _ => exact Runs.failAt hname _
  | lambda hd =>
    refine Runs.env.bind ?_
    rintro env _ rfl
    exact Runs.functionValue ⟨hd, rfl, rfl⟩
  | this href => exact Runs.lookUp href
  | super href hmethod => exact Runs.superMethod href hmethod

/-- Arguments, from the first to the last. -/
theorem evaluateAll_succ (ih : Copied K short fuel fuel') {es es' : List Expr}
    (h : Copy K (.exprs es) (.exprs es')) :
    Runs K short (List.Forall₂ (Value.Like K)) (Eval.evaluateAll (fuel + 1) es)
      (Eval.evaluateAll (fuel' + 1) es') := by
  cases h with
  | noExprs => exact .pure .nil
  | exprs h hes =>
    exact (ih.evaluate h).bind fun _ _ hv => (ih.evaluateAll hes).bind fun _ _ hvs => .pure (.cons hv hvs)

/-- Calls, by what is called: a native function, a function, or a class with or without an initializer. -/
theorem call_succ (ih : Copied K short fuel fuel') {v v' : Value} {paren paren' : Token}
    {given given' : List Value} (hv : v.Like K v') (hparen : K.token paren paren')
    (hgiven : List.Forall₂ (Value.Like K) given given') :
    Runs K short (Value.Like K) (Eval.call (fuel + 1) v paren given)
      (Eval.call (fuel' + 1) v' paren' given') := by
  cases hv with
  | native n => exact Runs.callNative hparen n hgiven
  | function _ hc => exact ih.callClosure hc hgiven
  | @classOf c c' hc =>
    refine Runs.newObject.bind ?_
    rintro identity _ rfl
    have hinit := hc.method? "init"
    dsimp only
    generalize c.method? "init" = found, c'.method? "init" = found' at hinit
    cases hinit with
    | none => exact .pure (.object identity hc)
    | some hm =>
      exact (Runs.bindThis hm (.object identity hc)).bind fun _ _ hready =>
        (ih.callClosure hready hgiven).bind fun _ _ _ => .pure (.object identity hc)
  | _ => exact Runs.failAt hparen _

/-- The parameters are defined in a new frame, in which the body is run. -/
theorem callClosure_succ (ih : Copied K short fuel fuel') {c c' : Closure} {given given' : List Value}
    (h : c.Like K c') (hgiven : List.Forall₂ (Value.Like K) given given') :
    Runs K short (Value.Like K) (Eval.callClosure (fuel + 1) c given)
      (Eval.callClosure (fuel' + 1) c' given') := by
  obtain ⟨d, around, isInitializer⟩ := c
  obtain ⟨d', around', isInitializer'⟩ := c'
  cases h.env
  refine (Runs.push around .empty).bind ?_
  rintro env _ rfl
  exact (Runs.defineParams env.frame h.declaration.function_params hgiven).bind fun _ _ _ =>
    (Runs.within env (ih.executeAll h.declaration.function_body)).bind fun _ _ hcompletion =>
      Runs.answer h hcompletion

/-- Statements, by the form of the copy. -/
theorem execute_succ (ih : Copied K short fuel fuel') {s s' : Stmt} (h : Copy K (.stmt s) (.stmt s')) :
    Runs K short (CompletionLike K) (Eval.execute (fuel + 1) s) (Eval.execute (fuel' + 1) s') := by
  cases h with
  | expression h => exact (ih.evaluate h).bind fun _ _ _ => .pure .normal
  | value h => exact (ih.evaluate h).bind fun _ _ _ => .pure .normal
  | unset hname => exact (Runs.define hname .none).bind fun _ _ _ => .pure .normal
  | initialized hname h =>
    exact ((ih.evaluate h).map fun _ _ hv => .some hv).bind fun _ _ hslot =>
      (Runs.define hname hslot).bind fun _ _ _ => .pure .normal
  | block h =>
    refine Runs.env.bind ?_
    rintro env _ rfl
    refine (Runs.push env .empty).bind ?_
    rintro inner _ rfl
    exact Runs.within inner (ih.executeAll h)
  | ifOnly hc ht =>
    refine (ih.evaluate hc).bind fun a a' ha => ?_
    rw [ha.truthy_eq]
    split
    · exact ih.execute ht
    · exact .pure .normal
  | ifElse hc ht he =>
    refine (ih.evaluate hc).bind fun a a' ha => ?_
    rw [ha.truthy_eq]
    split
    · exact ih.execute ht
    · exact ih.execute he
  | whileLoop hc hb =>
    refine (ih.evaluate hc).bind fun a a' ha => ?_
    rw [ha.truthy_eq]
    split
    · refine (ih.execute hb).bind fun completion completion' hcompletion => ?_
      cases hcompletion with
      | normal => exact ih.execute (.whileLoop hc hb)
      | broke => exact .pure .normal
      | returned hv => exact .pure (.returned hv)
    · exact .pure .normal
  | breakLoop _ => exact .pure .broke
  | @funcDecl d d' hd =>
    refine Runs.env.bind ?_
    rintro env _ rfl
    -- A declared function has a name; the keyword would do for one without.
    have hname : K.token (d.name.getD d.keyword) (d'.name.getD d'.keyword) := by
      have hn := hd.function_name
      generalize d.name = name, d'.name = name' at hn
      cases hn with
      | none => exact hd.function_keyword
      | some hn => exact hn
    have hclosure : Closure.Like K ⟨d, env, false⟩ ⟨d', env, false⟩ := ⟨hd, rfl, rfl⟩
    exact (Runs.functionValue hclosure).bind fun _ _ hv =>
      (Runs.define hname (.some hv)).bind fun _ _ _ => .pure .normal
  | classDecl hname href hds => exact (Runs.declareClass hname href hds).bind fun _ _ _ => .pure .normal
  | returned _ => exact .pure (.returned .nil)
  | returnedValue _ h =>
    refine Action.Agrees.bind (P := Option.Rel (Value.Like K))
      ((ih.evaluate h).map fun _ _ hv => .some hv) fun result result' hresult => ?_
    cases hresult with
    | none => exact .pure (.returned .nil)
    | some hv => exact .pure (.returned hv)

/-- Statements in a row, until one is not completed normally. -/
theorem executeAll_succ (ih : Copied K short fuel fuel') {ss ss' : List Stmt}
    (h : Copy K (.stmts ss) (.stmts ss')) :
    Runs K short (CompletionLike K) (Eval.executeAll (fuel + 1) ss) (Eval.executeAll (fuel' + 1) ss') := by
  cases h with
  | noStmts => exact .pure .normal
  | stmts h hss =>
    refine (ih.execute h).bind fun completion completion' hcompletion => ?_
    cases hcompletion with
    | normal => exact ih.executeAll hss
    | broke => exact .pure .broke
    | returned hv => exact .pure (.returned hv)

/-- Copies run alike with more fuel if they do with less. -/
theorem succ (ih : Copied K short fuel fuel') : Copied K short (fuel + 1) (fuel' + 1) where
  evaluate := ih.evaluate_succ
  evaluateAll := ih.evaluateAll_succ
  call := ih.call_succ
  callClosure := ih.callClosure_succ
  execute := ih.execute_succ
  executeAll := ih.executeAll_succ

end Copied

/-- **Copies run alike.** -/
theorem copied (h : Suffices short fuel fuel') : Copied K short fuel fuel' := by
  induction fuel generalizing fuel' with
  | zero =>
    rcases h with rfl | ⟨hshort, _⟩
    · constructor <;> intros <;> exact .outOfFuel
    · constructor <;> intros <;> exact .of_short hshort
  | succ fuel ih =>
    cases fuel' with
    | zero => rcases h with h | ⟨_, h⟩ <;> omega
    | succ fuel' =>
      refine (ih ?_).succ
      rcases h with h | ⟨hshort, h⟩
      · exact .inl (by omega)
      · exact .inr ⟨hshort, by omega⟩

/-! ## Programs -/

variable {fuel fuel' : Nat} {ss ss' : List Stmt}

/-- Programs that are copies run alike. -/
theorem runAll_copies (hfuel : Suffices short fuel fuel') (h : Copy K (.stmts ss) (.stmts ss'))
    {last last' : Option Value} (hlast : Option.Rel (Value.Like K) last last') :
    Runs K short (Option.Rel (Value.Like K)) (runAll fuel ss last) (runAll fuel' ss' last') := by
  have hrules := copied (K := K) hfuel
  induction ss generalizing ss' last last' with
  | nil =>
    cases h
    exact .pure hlast
  | cons s ss ih =>
    cases h with
    | stmts hs hss =>
      have hstep : Runs K short (Option.Rel (Value.Like K)) (execute fuel s >>= fun _ => runAll fuel ss last)
          (execute fuel' _ >>= fun _ => runAll fuel' _ last') :=
        (hrules.execute hs).bind fun _ _ _ => ih hss hlast
      cases hs with
      | value he => exact (hrules.evaluate he).bind fun _ _ hv => ih hss (.some hv)
      | _ => exact hstep

end Lox.Eval
