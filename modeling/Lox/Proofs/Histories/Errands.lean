import Lox.Proofs.Histories.Turns
import Lox.Proofs.Runs.Kept

/-!
  Errands.

  Only native functions reach outside: a run changes the host by calling them, and by nothing else
  (`Silent`).  So the calls of native functions in the log of a run, one after the other, lead from the host
  at its beginning to that at its end, and the first that fails is the last (`Hears`, `hears`).
  The same holds of whole sessions (`relay_of_history`).

  1. Every step but the call of a native function leaves the host as it is, whether it succeeds or fails;
     this is shown for each operation of the machine, and sequences of such steps are such again.
  2. `Hears k host l r` says that the calls among the events `l`, opened to the depth `k`, lead from the
     host in front of an action to that in its ending `r`.  It is composed as actions are (`Hears.bind`): a step
     that is logged and reaches nothing is heard of as no call at all (`Hears.still`), and a call is heard of as
     itself (`Hears.native`).
  3. By induction on the depth this is true of every moment.  A step more opens one moment, and then the
     log of this moment has been composed in the same order as the evaluator composes its actions; so each case
     goes through the two side by side.

  That a call which has failed is the last one is part of the same statement, since a failure ends every action
  it is part of.
-/

namespace Lox

open Machine Eval

/-- A call of a native function. -/
structure Errand where
  token : Token
  native : Native
  given : List Value
  machine : Machine

namespace Errand

/-- What the call gives, or the error with which it ends. -/
def result (e : Errand) : Except RuntimeError Value :=
  (nativeAnswer e.given e.machine.host e.native).1.mapError (⟨e.token, ·⟩)

/-- The host behind the call, also if it fails. -/
def behind (e : Errand) : Host := (nativeAnswer e.given e.machine.host e.native).2

/-- **The evaluator calls native functions in this way.** -/
theorem call_run (e : Errand) (n : Nat) :
    Eval.call (n + 1) (.native e.native) e.token e.given e.machine =
      match e.result with
      | .ok v => .done v { e.machine with host := e.behind }
      | .error error => .failed error { e.machine with host := e.behind } := by
  show callNative e.token e.native e.given e.machine = _
  rw [callNative_run, result, behind]
  -- The host behind the call is the same, whether it has failed or not.
  rcases nativeAnswer e.given e.machine.host e.native with ⟨_ | _, _⟩ <;> rfl

end Errand

/-- The call that comes with an event, if there is fuel for it. -/
def Event.errand? : Event → Option Errand
  | .comes ⟨n, .call (.native native) token given, m⟩ =>
    match n with
    | 0 => none
    | _ + 1 => some ⟨token, native, given, m⟩
  | _ => none

/-- The calls of native functions among events. -/
def errandsOf (l : List Event) : List Errand := l.filterMap Event.errand?

/-- Calls are found in two parts of a log separately. -/
theorem errandsOf_append (l l' : List Event) : errandsOf (l ++ l') = errandsOf l ++ errandsOf l' :=
  List.filterMap_append

/-- The calls lead from the one host to the other, each beginning where the one before has ended. -/
inductive Relay : Host → List Errand → Host → Prop where
  | none {host : Host} : Relay host [] host
  | errand {e : Errand} {es : List Errand} {host : Host} : Relay e.behind es host →
    Relay e.machine.host (e :: es) host

/-- One stretch of calls behind another. -/
theorem Relay.append {host host' host'' : Host} {es es' : List Errand} (h : Relay host es host')
    (h' : Relay host' es' host'') : Relay host (es ++ es') host'' := by
  induction h with
  | none => exact h'
  | errand _ ih => exact .errand (ih h')

/-! ## Steps that reach nothing

  Most steps of the evaluator neither read nor change the host, and come to the host that they were given. -/

/-- However the action ends, the host is as it was. -/
def Silent {α : Type} (x : Eval α) : Prop := ∀ m m', (x m).state? = some m' → m'.host = m.host

namespace Silent

variable {α β : Type}

/-- Nothing is done. -/
theorem pure (a : α) : Silent (Pure.pure a : Eval α) := by
  intro m m' h
  cases h
  rfl

/-- The machine is looked at only. -/
theorem read (view : Machine → α) : Silent (.read view : Eval α) := by
  intro m m' h
  cases h
  rfl

/-- A failure changes nothing. -/
theorem failAt (token : Token) (fault : RuntimeFault) : Silent (Machine.failAt token fault : Eval α) := by
  intro m m' h
  cases h
  rfl

/-- One silent action behind another. -/
theorem bind {x : Eval α} {f : α → Eval β} (hx : Silent x) (hf : ∀ a, Silent (f a)) : Silent (x >>= f) := by
  intro m m' h
  obtain ⟨e, hrun⟩ | ⟨a, t, hrun, hrest⟩ := Action.state?_bind h
  · exact hx m m' (by rw [hrun]; rfl)
  · exact (hf a t m' hrest).trans (hx m t (by rw [hrun]; rfl))

/-- The store is not the host. -/
theorem atToken (token : Token) (step : StoreStep α) : Silent (Machine.atToken token step) := by
  rintro ⟨store, env, found, host⟩ m' h
  rw [Machine.atToken] at h
  cases hstep : step store <;> rw [hstep] at h <;> cases h <;> rfl

/-- What is made is made in the store. -/
theorem make (step : Store → α × Store) : Silent (Machine.make step) := by
  intro m m' h
  cases h
  rfl

/-- What an operator gives is handed on, or its failure. -/
theorem liftAt (token : Token) (r : Except RuntimeFault α) : Silent (Machine.liftAt token r) := by
  cases r with
  | ok a => exact pure a
  | error fault => exact failAt token fault

/-- A variable is read in the store. -/
theorem lookUp (ref : Ref) : Silent (Machine.lookUp ref) := by
  refine (read _).bind fun env => (read _).bind fun distance => ?_
  cases distance <;> exact atToken _ _

/-- A variable is written in the store. -/
theorem assign (ref : Ref) (v : Value) : Silent (Machine.assign ref v) := by
  refine (read _).bind fun env => (read _).bind fun distance => ?_
  cases distance <;> exact atToken _ _

/-- A variable is declared in the store. -/
theorem define (name : Token) (slot : Option Value) : Silent (Machine.define name slot) :=
  (read _).bind fun _ => atToken _ _

/-- So are parameters. -/
theorem defineParams (frame : Nat) (params : List Token) (given : List Value) :
    Silent (Machine.defineParams frame params given) := by
  induction params generalizing given with
  | nil => cases given <;> exact pure ()
  | cons param params ih =>
    cases given with
    | nil => exact pure ()
    | cons v vs => exact (atToken _ _).bind fun _ => ih vs

theorem functionValue (closure : Closure) : Silent (Machine.functionValue closure) :=
  (make _).bind fun _ => pure _

theorem bindThis (method : Closure) (this : Value) : Silent (Machine.bindThis method this) :=
  (make _).bind fun _ => pure _

/-- A method is bound in the store. -/
theorem getProperty (v : Value) (name : Token) : Silent (Machine.getProperty v name) := by
  cases v with
  | object id c =>
    refine (read _).bind fun field => ?_
    cases field with
    | some field => exact pure field
    | none =>
      cases c.method? name.lexeme with
      | none => exact failAt _ _
      | some method =>
        dsimp only
        split
        · exact failAt _ _
        · exact (bindThis _ _).bind fun _ => functionValue _
  | _ => exact failAt _ _

/-- The two variables around a method are read, and then it is bound. -/
theorem superMethod (ref : Ref) (method : Token) : Silent (Machine.superMethod ref method) := by
  refine (read _).bind fun env => (read _).bind fun distance => ?_
  cases distance with
  | none => exact failAt _ _
  | some distance =>
    refine (atToken _ _).bind fun superclass => ?_
    cases superclass with
    | classOf c =>
      refine (atToken _ _).bind fun this => ?_
      cases this with
      | object id d =>
        dsimp only
        cases c.method? method.lexeme with
        | some found => exact (bindThis _ _).bind fun _ => functionValue _
        | none => exact failAt _ _
      | _ => exact failAt _ _
    | _ => exact failAt _ _

/-- A superclass is the value of a variable. -/
theorem superclassOf (ref : Ref) : Silent (Machine.superclassOf ref) := by
  refine (lookUp ref).bind fun v => ?_
  cases v with
  | classOf c => exact pure c
  | _ => exact failAt _ _

/-- A class is made in the store, and the frame around its methods before it. -/
theorem declareClass (name : Token) (superclass : Option Ref) (methods : List FunctionDecl) :
    Silent (Machine.declareClass name superclass methods) := by
  have hparent : Silent (superclass.elim (Pure.pure none) fun ref => some <$> Machine.superclassOf ref) := by
    cases superclass with
    | none => exact pure none
    | some ref =>
      show Silent (some <$> Machine.superclassOf ref)
      rw [map_eq_pure_bind]
      exact (superclassOf ref).bind fun _ => pure _
  refine hparent.bind fun parent => (define _ _).bind fun _ => (read _).bind fun env => ?_
  have haround : Silent (aroundMethods env parent) := by
    cases parent with
    | none => exact pure env
    | some c => exact make (Store.push env _)
  exact haround.bind fun _ => (make _).bind fun _ => atToken _ _

/-- An initializer hands back its instance, which it reads in the store. -/
theorem answer (closure : Closure) (completion : Completion) : Silent (Eval.answer closure completion) := by
  unfold Eval.answer
  split
  · exact atToken _ _
  · cases completion <;> exact pure _

end Silent

/-! ## Moments at which nothing is called -/

/-- The moment leads no further, and calls no native function. -/
structure Moment.Still (μ : Moment) : Prop where
  leads : ∀ ν, ¬ Calls μ ν
  calls : (Event.comes μ).errand? = none

section Still

variable {k n : Nat} {m : Machine} {l : List Event}

/-- A name is looked up at one moment. -/
theorem still_lookUp (ref : Ref) : Moment.Still ⟨n, .lookUp ref, m⟩ where
  leads ν h := by cases h
  calls := rfl

/-- A variable is assigned to at one moment. -/
theorem still_assign (ref : Ref) (v : Value) : Moment.Still ⟨n, .assign ref v, m⟩ where
  leads ν h := by cases h
  calls := rfl

/-- A method is bound at one moment. -/
theorem still_bind (method : Closure) (this : Value) : Moment.Still ⟨n, .bind method this, m⟩ where
  leads ν h := by cases h
  calls := rfl

/-- Where the evaluator comes to such moments only, there are no errands, however far they are opened. -/
theorem errandsOf_still (h : ∀ μ, .comes μ ∈ l → μ.Still) : errandsOf (opened k l) = [] := by
  rw [errandsOf, List.filterMap_eq_nil_iff]
  intro e he
  obtain ⟨e', he', hin⟩ := List.mem_flatMap.mp he
  cases e' with
  | does μ m deed =>
    cases List.mem_singleton.mp hin
    rfl
  | comes μ =>
    obtain ⟨ν, hleads, heq⟩ := Moment.leads_of_mem_log hin
    -- A moment that leads no further leads to itself alone.
    have hsame : μ = ν := by
      cases hleads.cases_head with
      | inl heq => exact heq
      | inr hnext =>
        obtain ⟨κ, hcalls, -⟩ := hnext
        exact absurd hcalls ((h μ he').leads κ)
    subst hsame
    rcases heq with rfl | hinside
    · exact (h μ he').calls
    · cases e with
      | comes κ => exact absurd (Moment.calls_of_inside hinside) ((h μ he').leads κ)
      | does => rfl

end Still

/-! ## What is heard of an action

  The calls of native functions among its moments lead from the host before it to the host behind it. -/

/-- The calls that are logged lead to the host behind the action; none of them failed, but that the last one
    may have ended it. -/
def Hears {α : Type} (k : Nat) (host : Host) (l : List Event) (r : Ending Machine RuntimeError α) : Prop :=
  match r with
  | .done _ m => Relay host (errandsOf (opened k l)) m.host ∧
    ∀ e ∈ errandsOf (opened k l), ∃ v, e.result = .ok v
  | .failed error m => Relay host (errandsOf (opened k l)) m.host ∧
    ∀ e ∈ errandsOf (opened k l), (∃ v, e.result = .ok v) ∨
      (errandsOf (opened k l)).getLast? = some e ∧ e.result = .error error
  | .exhausted => True

namespace Hears

variable {α β : Type} {k n : Nat} {host : Host} {l : List Event} {m : Machine} {μ : Moment}

/-- An action that reaches nothing, with a log in which nothing is called. -/
theorem still {x : Eval α} (hx : Silent x) (hl : ∀ μ, .comes μ ∈ l → μ.Still) : Hears k m.host l (x m) := by
  have hsilent := hx m
  unfold Hears
  rw [errandsOf_still hl]
  cases hrun : x m with
  | done a m' =>
    rw [← hsilent m' (by rw [hrun]; rfl)]
    exact ⟨.none, nofun⟩
  | failed error m' =>
    rw [← hsilent m' (by rw [hrun]; rfl)]
    exact ⟨.none, nofun⟩
  | exhausted => trivial

/-- An action that reaches nothing and is not logged. -/
theorem quiet {x : Eval α} (hx : Silent x) : Hears k m.host [] (x m) :=
  still hx fun _ h => absurd h List.not_mem_nil

/-- An action that is over has no calls. -/
theorem done (a : α) : Hears k m.host [] (.done a m) := ⟨.none, nofun⟩

/-- One action after the other. -/
theorem bind {x : Eval α} {f : α → Eval β} {l' : α → Machine → List Event} (hx : Hears k host l (x m))
    (hf : ∀ a m', x m = .done a m' → Hears k m'.host (l' a m') (f a m')) :
    Hears k host (l ++ (x m).after l') ((x >>= f) m) := by
  unfold Hears at hx ⊢
  cases hrun : x m with
  | done a m' =>
    rw [hrun] at hx
    obtain ⟨hrelay, hgood⟩ := hx
    have hnext := hf a m' hrun
    unfold Hears at hnext
    rw [Action.bind_of_done hrun, Moment.after_done, opened_append, errandsOf_append]
    cases hlast : f a m' with
    | done b m'' =>
      rw [hlast] at hnext
      refine ⟨hrelay.append hnext.1, ?_⟩
      intro e he
      rcases List.mem_append.mp he with he | he
      · exact hgood e he
      · exact hnext.2 e he
    | failed error m'' =>
      rw [hlast] at hnext
      refine ⟨hrelay.append hnext.1, ?_⟩
      intro e he
      rcases List.mem_append.mp he with he | he
      · exact .inl (hgood e he)
      · rcases hnext.2 e he with hok | ⟨hend, herror⟩
        · exact .inl hok
        · -- The last call of the second action is the last of both.
          refine .inr ⟨?_, herror⟩
          rw [List.getLast?_append_of_ne_nil _ (List.ne_nil_of_mem he), hend]
    | exhausted => trivial
  | failed error m' =>
    rw [hrun] at hx
    rw [Action.bind_of_failed hrun, Ending.after, List.append_nil]
    exact hx
  | exhausted =>
    rw [Action.bind_of_exhausted hrun]
    trivial

/-- An action that begins with a single event, and another. -/
theorem first {e : Event} {x : Eval α} {f : α → Eval β} {l' : α → Machine → List Event}
    (hx : Hears k host [e] (x m)) (hf : ∀ a m', x m = .done a m' → Hears k m'.host (l' a m') (f a m')) :
    Hears k host (e :: (x m).after l') ((x >>= f) m) :=
  hx.bind hf

/-- An action, and another that reaches nothing. -/
theorem quietly {x : Eval α} {f : α → Eval β} (hx : Hears k host l (x m)) (hf : ∀ a, Silent (f a)) :
    Hears k host l ((x >>= f) m) := by
  -- What comes behind has an empty log.
  have hall : Hears k host (l ++ (x m).after fun _ _ => []) ((x >>= f) m) := hx.bind fun a m' _ => quiet (hf a)
  have hnone : (x m).after (fun _ _ => []) = [] := by cases x m <;> rfl
  rwa [hnone, List.append_nil] at hall

/-- Before an action a deed is done. -/
theorem behind {deed : Deed} {m' : Machine} {r : Ending Machine RuntimeError α} (hx : Hears k host l r) :
    Hears k host (.does μ m' deed :: l) r :=
  hx

/-- Which frames are current does not matter. -/
theorem within {env : Env} {x : Eval α} (hx : Hears k host l (x { m with env := env })) :
    Hears k host l (Machine.within env x m) := by
  unfold Machine.within Action.keeping
  rw [Action.bind_of_done (show Action.update _ m = .done () { m with env := env } from rfl)]
  unfold Hears at hx ⊢
  cases hrun : x { m with env := env } with
  | done a m' =>
    rw [hrun] at hx
    exact hx
  | failed error m' =>
    rw [hrun] at hx
    exact hx
  | exhausted => trivial

/-- What is heard of a moment is heard from within, unless it is a call of a native function. -/
theorem opens {r : Ending Machine RuntimeError α} (hμ : (Event.comes μ).errand? = none)
    (hx : Hears k host μ.inside r) : Hears (k + 1) host [.comes μ] r := by
  -- The moment itself is no call, so those within it are all there are.
  have hopen : errandsOf (opened (k + 1) [.comes μ]) = errandsOf (opened k μ.inside) := by
    rw [opened_comes, errandsOf, List.filterMap_cons_none hμ, errandsOf]
  unfold Hears at hx ⊢
  rw [hopen]
  exact hx

/-- A call of a native function. -/
theorem native (hn : n < k) (native : Native) (token : Token) (given : List Value) :
    Hears k m.host [.comes ⟨n, .call (.native native) token given, m⟩]
      (Eval.call n (.native native) token given m) := by
  cases n with
  | zero => trivial
  | succ n =>
    obtain ⟨k, rfl⟩ : ∃ j, k = j + 1 := ⟨k - 1, by omega⟩
    -- The one moment at which the host is asked is one errand.
    have hopen : errandsOf (opened (k + 1) [.comes ⟨n + 1, .call (.native native) token given, m⟩]) =
        [⟨token, native, given, m⟩] := by
      rw [opened_comes]
      rfl
    have hrun := Errand.call_run ⟨token, native, given, m⟩ n
    have hrelay : Relay m.host [⟨token, native, given, m⟩]
        (Errand.behind ⟨token, native, given, m⟩) :=
      Relay.errand (e := ⟨token, native, given, m⟩) .none
    unfold Hears
    rw [hopen]
    dsimp only at hrun
    rw [hrun]
    cases hresult : Errand.result ⟨token, native, given, m⟩ with
    | ok v =>
      refine ⟨hrelay, ?_⟩
      intro e he
      cases List.mem_singleton.mp he
      exact ⟨v, hresult⟩
    | error error =>
      refine ⟨hrelay, ?_⟩
      intro e he
      cases List.mem_singleton.mp he
      exact .inr ⟨rfl, hresult⟩

end Hears

/-! ## What is heard of a run

  By induction on the fuel, with the moments of each activity as they have been written out. -/

/-- Of all moments that lie less deep the calls are heard. -/
structure Hearing (k : Nat) : Prop where
  evaluate : ∀ {n m}, n < k → ∀ e, Hears k m.host [.comes ⟨n, .evaluate e, m⟩] (evaluate n e m)
  evaluateAll : ∀ {n m}, n < k → ∀ es, Hears k m.host [.comes ⟨n, .evaluateAll es, m⟩] (evaluateAll n es m)
  call : ∀ {n m}, n < k → ∀ v paren given,
    Hears k m.host [.comes ⟨n, .call v paren given, m⟩] (call n v paren given m)
  callClosure : ∀ {n m}, n < k → ∀ c given,
    Hears k m.host [.comes ⟨n, .callClosure c given, m⟩] (callClosure n c given m)
  execute : ∀ {n m}, n < k → ∀ s, Hears k m.host [.comes ⟨n, .execute s, m⟩] (execute n s m)
  executeAll : ∀ {n m}, n < k → ∀ ss, Hears k m.host [.comes ⟨n, .executeAll ss, m⟩] (executeAll n ss m)

namespace Hearing

variable {k n : Nat} {m : Machine} {μ : Moment}

/-- To fetch a method is to bind it. -/
theorem still_fetching {method : Closure} {this : Value} :
    ∀ ν, .comes ν ∈ μ.fetching n method this m → ν.Still := by
  intro ν h
  rw [Moment.comes_mem_fetching.mp h]
  exact still_bind method this

/-- To read a property is, at most, to bind a method. -/
theorem still_reading {v : Value} {name : Token} : ∀ ν, .comes ν ∈ μ.reading n v name m → ν.Still := by
  intro ν h
  obtain ⟨_, _, _, -, -, -, -, rfl⟩ := Moment.comes_mem_reading.mp h
  exact still_bind _ _

/-- So is to read one by `super`. -/
theorem still_readingSuper {ref : Ref} {method : Token} :
    ∀ ν, .comes ν ∈ μ.readingSuper n ref method m → ν.Still := by
  intro ν h
  rw [Moment.readingSuper] at h
  split at h
  · cases h
  split at h
  · split at h
    · exact still_fetching ν h
    · cases h
  · cases h

/-- A moment at which nothing else is called. -/
theorem still_moment {α : Type} {x : Eval α} (hμ : μ.Still) (hx : Silent x) :
    Hears k μ.machine.host [.comes μ] (x μ.machine) := by
  refine .still hx ?_
  intro ν h
  cases List.mem_singleton.mp h
  exact hμ

/-- An instance is made silently; what its initializer calls is heard. -/
theorem creating (ih : Hearing k) (hn : n < k) (c : Class) (given : List Value) :
    Hears k m.host (μ.creating n c given m)
      ((do
        let identity ← make Store.newObject
        let created := Value.object identity c
        match c.method? "init" with
        | none => pure created
        | some init =>
          let ready ← bindThis init created
          let _ ← Eval.callClosure n ready given
          pure created : Eval Value) m) := by
  -- Deed by deed: the instance comes to be, and then, if there is an initializer, it is bound and called.
  have hrun : make Store.newObject m = .done m.store.objects.size { m with store := m.store.newObject.2 } :=
    rfl
  refine .behind ?_
  rw [Action.bind_of_done hrun, hrun, Moment.after_done]
  cases c.method? "init" with
  | none => exact .quiet (m := { m with store := m.store.newObject.2 }) (.pure _)
  | some init =>
    have hstill : Moment.Still
        ⟨n, .bind init (.object m.store.objects.size c), { m with store := m.store.newObject.2 }⟩ :=
      still_bind _ _
    refine Hears.first (still_moment hstill (.bindThis _ _)) ?_
    intro ready m₂ _
    exact (ih.callClosure hn ready given).quietly fun _ => .pure _

/-- The frame of a call and its parameters are silent; what the body calls is heard. -/
theorem entering (ih : Hearing k) (hn : n < k) (closure : Closure) (given : List Value) :
    Hears k m.host (μ.entering n closure given m)
      ((do
        let env ← make (Store.push closure.env .empty)
        defineParams env.frame closure.declaration.params given
        let completion ← Machine.within env (Eval.executeAll n closure.declaration.body)
        answer closure completion : Eval Value) m) := by
  have hrun : make (Store.push closure.env .empty) m =
      .done (closure.env.extend m.store.frames.size)
        { m with store := (m.store.push closure.env .empty).2 } := rfl
  refine .behind ?_
  rw [Action.bind_of_done hrun, hrun, Moment.after_done]
  -- The parameters are declared in the new frame, and with it as the current one the body is run.
  refine Hears.bind (m := { m with store := (m.store.push closure.env .empty).2 })
    (.still (.defineParams _ _ _) fun _ h => absurd h Moment.comes_mem_supplying) ?_
  intro _ m₂ _
  exact (Hears.within (ih.executeAll (m := { m₂ with env := _ }) hn _)).quietly fun _ => .answer _ _

/-- An expression calls what its parts call, in the order in which they are evaluated. -/
theorem evaluating (ih : Hearing k) (hn : n < k) (e : Expr) :
    Hears k m.host (Moment.evaluating μ n m e) (Eval.evaluate (n + 1) e m) := by
  -- Parts that are run are heard one after the other; whatever else an expression does is silent.
  cases e with
  | literal value => exact .quiet (.pure _)
  | grouping inner => exact ih.evaluate hn inner
  | unary operator right => exact (ih.evaluate hn right).quietly fun _ => .liftAt _ _
  | binary left operator right =>
    refine .first (ih.evaluate hn left) ?_
    intro a m₁ _
    exact (ih.evaluate hn right).quietly fun _ => .liftAt _ _
  | logical left operator right =>
    refine .first (ih.evaluate hn left) ?_
    intro a m₁ _
    split
    · exact .quiet (.pure a)
    · exact ih.evaluate hn right
  | ternary condition thenBranch elseBranch =>
    refine .first (ih.evaluate hn condition) ?_
    intro v m₁ _
    split
    · exact ih.evaluate hn thenBranch
    · exact ih.evaluate hn elseBranch
  | «variable» ref => exact still_moment (still_lookUp ref) (.lookUp ref)
  | assign ref value =>
    refine .first (ih.evaluate hn value) ?_
    intro v m₁ _
    exact (still_moment (still_assign ref v) (.assign ref v)).quietly
      fun _ => .pure _
  | call callee paren arguments =>
    refine .first (ih.evaluate hn callee) ?_
    intro function m₁ _
    refine .first (ih.evaluateAll hn arguments) ?_
    intro given m₂ _
    exact ih.call hn function paren given
  | get object name =>
    refine .first (ih.evaluate hn object) ?_
    intro v m₁ _
    exact .still (.getProperty v name) still_reading
  | set object name value =>
    refine .first (ih.evaluate hn object) ?_
    intro v m₁ _
    cases v with
    | object id c =>
      refine .first (ih.evaluate hn value) ?_
      intro w m₂ _
      exact .behind (.done w)
    | _ => exact .quiet (.failAt _ _)
  | lambda declaration => exact .behind (.quiet ((Silent.read _).bind fun _ => .functionValue _))
  | this ref => exact still_moment (still_lookUp ref) (.lookUp ref)
  | super ref method => exact .still (.superMethod ref method) still_readingSuper

/-- A statement calls what its parts call, in the order in which they are run. -/
theorem executing (ih : Hearing k) (hn : n < k) (s : Stmt) :
    Hears k m.host (Moment.executing μ n m s) (Eval.execute (n + 1) s m) := by
  -- As for expressions; a frame or a declaration is silent, too.
  cases s with
  | expression value => exact (ih.evaluate hn value).quietly fun _ => .pure _
  | value value => exact (ih.evaluate hn value).quietly fun _ => .pure _
  | varDecl name initializer =>
    cases initializer with
    | none => exact .still ((Silent.define _ _).bind fun _ => .pure _) fun _ h => absurd h Moment.comes_mem_declaring
    | some e =>
      have hrun : Eval.execute (n + 1) (.varDecl name (some e)) = (do
          let v ← Eval.evaluate n e
          define name (some v)
          pure .normal : Eval Completion) := bind_map_left _ _ _
      rw [hrun]
      refine .first (ih.evaluate hn e) ?_
      intro v m₁ _
      have hdeclare : Hears k m₁.host (μ.declaring name (some v) m₁) (define name (some v) m₁) :=
        .still (.define _ _) fun _ h => absurd h Moment.comes_mem_declaring
      exact hdeclare.quietly fun _ => .pure _
  | block body => exact .behind (.within (ih.executeAll (m := { m with store := _, env := _ }) hn body))
  | ifElse condition thenBranch elseBranch =>
    refine .first (ih.evaluate hn condition) ?_
    intro v m₁ _
    split
    · exact ih.execute hn thenBranch
    · cases elseBranch with
      | none => exact .done _
      | some branch => exact ih.execute hn branch
  | whileLoop condition body =>
    refine .first (ih.evaluate hn condition) ?_
    intro v m₁ _
    split
    · refine .first (ih.execute hn body) ?_
      intro completion m₂ _
      cases completion with
      | normal => exact ih.execute hn (.whileLoop condition body)
      | broke => exact .done _
      | returned v => exact .done _
    · exact .done _
  | breakLoop keyword => exact .done _
  | funcDecl declaration =>
    have hsilent : Silent (Eval.execute (n + 1) (.funcDecl declaration)) :=
      (Silent.read _).bind fun _ => (Silent.functionValue _).bind fun _ => (Silent.define _ _).bind fun _ =>
        .pure _
    refine .still hsilent ?_
    intro ν h
    simp [Moment.executing, Moment.making, Moment.mem_after, Moment.comes_mem_declaring] at h
  | classDecl name superclass methods =>
    refine .still ((Silent.declareClass name superclass methods).bind fun _ => .pure _) ?_
    intro ν h
    cases superclass with
    | none => exact absurd h Moment.comes_mem_founding
    | some ref =>
      simp only [Moment.executing, List.mem_cons, Moment.mem_after, Moment.comes_mem_founding, and_false,
        exists_false, or_false] at h
      cases h
      exact still_lookUp ref
  | returnValue keyword value =>
    cases value with
    | none => exact .done _
    | some e =>
      have hrun : Eval.execute (n + 1) (.returnValue keyword (some e)) = (do
          let v ← Eval.evaluate n e
          pure (.returned v) : Eval Completion) := bind_map_left _ _ _
      rw [hrun]
      exact (ih.evaluate hn e).quietly fun _ => .pure _

/-- More depth hears more. -/
theorem succ (ih : Hearing k) : Hearing (k + 1) where
  evaluate {n m} hn e := by
    refine .opens rfl ?_
    cases n with
    | zero => trivial
    | succ n => exact ih.evaluating (by omega) e
  evaluateAll {n m} hn es := by
    refine .opens rfl ?_
    cases n with
    | zero => trivial
    | succ n =>
      cases es with
      | nil => exact .done _
      | cons e es =>
        refine .first (ih.evaluate (by omega) e) ?_
        intro v m₁ _
        exact (ih.evaluateAll (by omega) es).quietly fun _ => .pure _
  call {n m} hn v paren given := by
    by_cases hnative : ∃ native, v = .native native
    · -- Here is the one case in which something is called.
      obtain ⟨native, rfl⟩ := hnative
      exact .native hn native paren given
    · -- All other calls are heard from what they call in turn.
      have hno : (Event.comes ⟨n, .call v paren given, m⟩).errand? = none := by
        cases v with
        | native native => exact absurd ⟨native, rfl⟩ hnative
        | _ => rfl
      refine .opens hno ?_
      cases n with
      | zero => trivial
      | succ n =>
        cases v with
        | native native => exact absurd ⟨native, rfl⟩ hnative
        | function id closure => exact ih.callClosure (by omega) closure given
        | classOf c => exact ih.creating (by omega) c given
        | _ => exact .quiet (.failAt _ _)
  callClosure {n m} hn c given := by
    refine .opens rfl ?_
    cases n with
    | zero => trivial
    | succ n => exact ih.entering (by omega) c given
  execute {n m} hn s := by
    refine .opens rfl ?_
    cases n with
    | zero => trivial
    | succ n => exact ih.executing (by omega) s
  executeAll {n m} hn ss := by
    refine .opens rfl ?_
    cases n with
    | zero => trivial
    | succ n =>
      cases ss with
      | nil => exact .done _
      | cons s ss =>
        refine .first (ih.execute (by omega) s) ?_
        intro completion m₁ _
        cases completion with
        | normal => exact ih.executeAll (by omega) ss
        | broke => exact .done _
        | returned v => exact .done _

end Hearing

/-- **Of every run the calls of native functions are heard**, to whatever depth. -/
theorem hears (k : Nat) : Hearing k := by
  induction k with
  | zero => constructor <;> intros <;> omega
  | succ k ih => exact ih.succ

/-- So are those of whole programs. -/
theorem hears_program {k n : Nat} (m : Machine) (ss : List Stmt) (last : Option Value)
    (hk : n + ss.length < k) : Hears k m.host [.comes ⟨n, .program ss last, m⟩] (runAll n ss last m) := by
  induction ss generalizing k m last with
  | nil =>
    obtain ⟨k, rfl⟩ : ∃ j, k = j + 1 := ⟨k - 1, by omega⟩
    refine .opens rfl ?_
    rw [Moment.inside_program_nil]
    exact .done _
  | cons s ss ih =>
    obtain ⟨k, rfl⟩ : ∃ j, k = j + 1 := ⟨k - 1, by omega⟩
    rw [List.length_cons] at hk
    have hn : n < k := by omega
    have hrest : n + ss.length < k := by omega
    refine .opens rfl ?_
    -- A shown expression is evaluated, any other statement is executed.
    by_cases hs : ∃ e, s = .value e
    · obtain ⟨e, rfl⟩ := hs
      rw [Moment.inside_shown]
      refine .first ((hears k).evaluate hn e) ?_
      intro v m₁ _
      exact ih m₁ _ hrest
    · have hs' : ∀ e, s ≠ .value e := fun e he => hs ⟨e, he⟩
      rw [Moment.inside_statement n hs', runAll_statement hs']
      refine .first ((hears k).execute hn s) ?_
      intro _ m₁ _
      exact ih m₁ _ hrest

/-! ## Sessions -/

namespace Turn

/-- The calls of native functions in a turn. -/
def errands (t : Turn) : List Errand := errandsOf t.log

variable {t : Turn} {answer : Answered Verdict}

/-- **The calls of a turn lead from the host before it to the host behind it.**  None of them failed, but that
    the last one may have ended it. -/
theorem relay_of_outcome (h : t.outcome? = some answer) :
    Relay t.session.machine.host t.errands answer.session.machine.host ∧
      ∀ e ∈ t.errands, (∃ v, e.result = .ok v) ∨
        ∃ error, t.errands.getLast? = some e ∧ e.result = .error error ∧ answer.result = .aborted error := by
  -- A turn that is not accepted has no log.
  have hrejected : ¬ t.Accepted → t.errands = [] := fun ha => by
    rw [errands, log_of_not_accepted ha]
    rfl
  have hdepth : t.fuel + t.parsed.program.length < t.opening.depth := by
    show t.fuel + t.parsed.program.length < t.fuel + t.parsed.program.length + 2
    omega
  have hheard := hears_program t.machine t.parsed.program none hdepth
  have hlog : t.Accepted → opened t.opening.depth [.comes ⟨t.fuel, .program t.parsed.program none, t.machine⟩] =
      t.log := fun ha => by
    rw [log_of_accepted ha]
    exact List.append_nil _
  -- The outcome of a turn comes about in one of four ways, and in two of them the program has been run.
  cases t.ends_of_outcome h with
  | unread hread =>
    rw [hrejected fun ha => hread ha.read]
    exact ⟨.none, fun _ h => absurd h List.not_mem_nil⟩
  | unmatched hread hmatched =>
    rw [hrejected fun ha => hmatched ha.matched]
    exact ⟨.none, fun _ h => absurd h List.not_mem_nil⟩
  | done ha hrun =>
    unfold Hears at hheard
    rw [hrun, hlog ha] at hheard
    exact ⟨hheard.1, fun e he => .inl (hheard.2 e he)⟩
  | @failed error m ha hrun =>
    unfold Hears at hheard
    rw [hrun, hlog ha] at hheard
    refine ⟨hheard.1, ?_⟩
    intro e he
    rcases hheard.2 e he with hok | ⟨hlast, herror⟩
    · exact .inl hok
    · exact .inr ⟨error, hlast, herror, rfl⟩

end Turn

/-- **The calls of native functions in a session lead from its first host to its present one.** -/
theorem relay_of_history {interactive : Bool} {host : Host} {dealings : List Dealing} {s : Session}
    (h : (Session.start interactive host).History dealings s) :
    Relay host (errandsOf (historyOf (turnsOf dealings))) s.machine.host := by
  refine h.turns_induction
    (motive := fun turns s => Relay host (errandsOf (historyOf turns)) s.machine.host) .none ?_ ?_
  · intro t turns answer hrelay hanswer
    rw [historyOf, errandsOf_append]
    exact hrelay.append (Turn.relay_of_outcome hanswer).1
  · intro turns before behind hrelay hmachine _
    rw [hmachine]
    exact hrelay

end Lox
