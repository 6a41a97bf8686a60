import Lox.Proofs.Runs.Moments

/-!
  What happens in a run, in order.

  A moment has a log: the moments that the evaluator comes to, and between them the deeds by which the
  store is changed or a property is read.  `Moment.inside` is what happens at a moment itself, where the
  moments within it are named and not opened; `Moment.log` opens them, to a depth.  What is logged is
  what the moment leads to, no more (`leads_of_mem_log`) and no less (`mem_logTo_of_leads`).

  The evaluator keeps no log.  So `Moment.inside` says once more, for each form of the syntax, which steps are
  taken in which order, and asks the evaluator itself only what a step has given, to know how it goes on
  behind it (`Ending.after`).  That it is the right log is not taken for granted:

  * the moments that are named are those to which the evaluator comes, by the relation `Calls`, which has been
    read off the evaluator before (`calls_of_inside`, `inside_of_calls`);
  * the deeds, one after the other, make of the store in front the store behind; this is a matter of the
    chronicles that are written of runs.

  Of the small steps it is first said which moments they name, and most name none: to declare, to assign or to
  supply parameters is no moment of its own.
-/

namespace Lox

open Machine Eval

/-- A single step that changes the store, or reads a property. -/
inductive Deed where
  /-- A property of the value is looked for. -/
  | reads (value : Value) (name : Token)
  /-- A frame is made inside a chain of frames. -/
  | opens (parent : Env) (frame : Table (Option Value))
  /-- A name of a frame is given a slot. -/
  | writes (frame : Nat) (name : String) (slot : Option Value)
  /-- A function, a class or an instance comes to be. -/
  | makes (value : Value)
  /-- A field of an instance is given a value. -/
  | stores (object : Nat) (name : String) (value : Value)

/-- Something that happens. -/
inductive Event where
  /-- The evaluator comes to the moment. -/
  | comes (μ : Moment)
  /-- At the moment a deed is done, on a machine that has been reached meanwhile. -/
  | does (μ : Moment) (m : Machine) (deed : Deed)

namespace Event

/-- The moment to which the event belongs. -/
def moment : Event → Moment
  | comes μ => μ
  | does μ _ _ => μ

/-- The machine right before the event. -/
def machine : Event → Machine
  | comes μ => μ.machine
  | does _ m _ => m

end Event

/-- What happens behind an action that has been done. -/
def Ending.after {α : Type} (r : Ending Machine RuntimeError α) (next : α → Machine → List Event) :
    List Event :=
  match r with
  | .done a m => next a m
  | .failed _ _ => []
  | .exhausted => []

namespace Moment

/-! ## Small steps

  What is recorded of each step: the frame it opens, the name it writes or reads, the value it makes. -/

section Steps

variable (μ : Moment)

/-- A name is declared in the current frame, unless it is there. -/
def declaring (name : Token) (slot : Option Value) (m : Machine) : List Event :=
  if (m.store.slot? m.env.frame name.lexeme).isSome then []
  else [.does μ m (.writes m.env.frame name.lexeme slot)]

/-- A name of a frame is given a value, if it is there. -/
def assigning (frame : Nat) (name : String) (value : Value) (m : Machine) : List Event :=
  if (m.store.slot? frame name).isSome then [.does μ m (.writes frame name (some value))] else []

/-- Parameters are declared, up to the first that is there. -/
def supplying (frame : Nat) : List Token → List Value → Machine → List Event
  | param :: params, value :: values, m =>
    if (m.store.slot? frame param.lexeme).isSome then []
    else
      .does μ m (.writes frame param.lexeme (some value)) ::
        supplying frame params values
          { m with store := m.store.put frame param.lexeme (some value) }
  | _, _, _ => []

/-- A function comes to be. -/
def making (closure : Closure) (m : Machine) : List Event :=
  [.does μ m (.makes (.function m.store.nextIdentity closure))]

/-- A method is bound to an instance, and the bound one comes to be. -/
def fetching (n : Nat) (method : Closure) (this : Value) (m : Machine) : List Event :=
  .comes ⟨n, .bind method this, m⟩ :: (bindThis method this m).after fun bound m => μ.making bound m

/-- A property is looked for; a method is fetched. -/
def reading (n : Nat) (value : Value) (name : Token) (m : Machine) : List Event :=
  .does μ m (.reads value name) ::
    match value with
    | .object id c =>
      match m.store.field? id name.lexeme, c.method? name.lexeme with
      | none, some method => if name.lexeme = "init" then [] else μ.fetching n method value m
      | _, _ => []
    | _ => []

/-- The method that `super` names is fetched. -/
def readingSuper (n : Nat) (ref : Ref) (method : Token) (m : Machine) : List Event :=
  match m.resolution[ref.id]? with
  | none => []
  | some distance =>
    match Store.getAt m.env distance ref.name.lexeme m.store,
      Store.getAt m.env (distance - 1) "this" m.store with
    | .done (.classOf superclass) _, .done (.object id c) _ =>
      match superclass.method? method.lexeme with
      | some found => μ.fetching n found (.object id c) m
      | none => []
    | _, _ => []

/-- An instance comes to be, and its initializer is called. -/
def creating (n : Nat) (c : Class) (given : List Value) (m : Machine) : List Event :=
  .does μ m (.makes (.object m.store.objects.size c)) :: (make Store.newObject m).after fun id m =>
    match c.method? "init" with
    | none => []
    | some init =>
      .comes ⟨n, .bind init (.object id c), m⟩ :: (bindThis init (.object id c) m).after fun ready m =>
        [.comes ⟨n, .callClosure ready given, m⟩]

/-- The frame of a call is made and gets its parameters, and the body is run. -/
def entering (n : Nat) (closure : Closure) (given : List Value) (m : Machine) : List Event :=
  .does μ m (.opens closure.env .empty) :: (make (Store.push closure.env .empty) m).after fun env m =>
    μ.supplying env.frame closure.declaration.params given m ++
      (defineParams env.frame closure.declaration.params given m).after fun _ m =>
        [.comes ⟨n, .executeAll closure.declaration.body, { m with env := env }⟩]

/-- The frame around the methods of a class is made, if the class extends another. -/
def surrounding : Option Class → Machine → List Event
  | none, _ => []
  | some c, m => [.does μ m (.opens m.env (Table.empty.insert "super" (some (.classOf c))))]

/-- A class is declared, once the class that it extends is known. -/
def founding (name : Token) (methods : List FunctionDecl) (parent : Option Class) (m : Machine) :
    List Event :=
  μ.declaring name none m ++ (define name none m).after fun _ m =>
    let env := m.env
    μ.surrounding parent m ++ (aroundMethods env parent m).after fun around m =>
      let own : ClassBody := ⟨m.store.nextIdentity, name.lexeme, methodTable methods around⟩
      let value := Value.classOf ⟨own, parent.elim [] Class.chain⟩
      .does μ m (.makes value) :: (make Store.newIdentity m).after fun _ m =>
        μ.assigning env.frame name.lexeme value m

end Steps

/-! ## Moments -/

/-- What happens while an expression is evaluated. -/
def evaluating (μ : Moment) (n : Nat) (m : Machine) : Expr → List Event
  | .literal _ => []
  | .grouping inner => [.comes ⟨n, .evaluate inner, m⟩]
  | .unary _ right => [.comes ⟨n, .evaluate right, m⟩]
  | .binary left _ right =>
    .comes ⟨n, .evaluate left, m⟩ :: (evaluate n left m).after fun _ m =>
      [.comes ⟨n, .evaluate right, m⟩]
  | .logical left operator right =>
    .comes ⟨n, .evaluate left, m⟩ :: (evaluate n left m).after fun a m =>
      if Operator.shortCircuits operator.kind a then [] else [.comes ⟨n, .evaluate right, m⟩]
  | .ternary condition thenBranch elseBranch =>
    .comes ⟨n, .evaluate condition, m⟩ :: (evaluate n condition m).after fun value m =>
      if value.truthy then [.comes ⟨n, .evaluate thenBranch, m⟩]
      else [.comes ⟨n, .evaluate elseBranch, m⟩]
  | .variable ref => [.comes ⟨n, .lookUp ref, m⟩]
  | .assign ref value =>
    .comes ⟨n, .evaluate value, m⟩ :: (evaluate n value m).after fun v m =>
      [.comes ⟨n, .assign ref v, m⟩]
  | .call callee paren arguments =>
    .comes ⟨n, .evaluate callee, m⟩ :: (evaluate n callee m).after fun function m =>
      .comes ⟨n, .evaluateAll arguments, m⟩ :: (evaluateAll n arguments m).after fun given m =>
        [.comes ⟨n, .call function paren given, m⟩]
  | .get object name =>
    .comes ⟨n, .evaluate object, m⟩ :: (evaluate n object m).after fun value m =>
      μ.reading n value name m
  | .set object name value =>
    .comes ⟨n, .evaluate object, m⟩ :: (evaluate n object m).after fun target m =>
      match target with
      | .object id _ =>
        .comes ⟨n, .evaluate value, m⟩ :: (evaluate n value m).after fun v m =>
          [.does μ m (.stores id name.lexeme v)]
      | _ => []
  | .lambda declaration => μ.making ⟨declaration, m.env, false⟩ m
  | .this ref => [.comes ⟨n, .lookUp ref, m⟩]
  | .super ref method => μ.readingSuper n ref method m

/-- What happens while a statement is run. -/
def executing (μ : Moment) (n : Nat) (m : Machine) : Stmt → List Event
  | .expression value => [.comes ⟨n, .evaluate value, m⟩]
  | .value value => [.comes ⟨n, .evaluate value, m⟩]
  | .varDecl name none => μ.declaring name none m
  | .varDecl name (some e) =>
    .comes ⟨n, .evaluate e, m⟩ :: (evaluate n e m).after fun v m => μ.declaring name (some v) m
  | .block body =>
    .does μ m (.opens m.env .empty) :: (make (Store.push m.env .empty) m).after fun env m =>
      [.comes ⟨n, .executeAll body, { m with env := env }⟩]
  | .ifElse condition thenBranch elseBranch =>
    .comes ⟨n, .evaluate condition, m⟩ :: (evaluate n condition m).after fun value m =>
      if value.truthy then [.comes ⟨n, .execute thenBranch, m⟩]
      else elseBranch.elim [] fun branch => [.comes ⟨n, .execute branch, m⟩]
  | .whileLoop condition body =>
    .comes ⟨n, .evaluate condition, m⟩ :: (evaluate n condition m).after fun value m =>
      if value.truthy then
        .comes ⟨n, .execute body, m⟩ :: (execute n body m).after fun completion m =>
          match completion with
          | .normal => [.comes ⟨n, .execute (.whileLoop condition body), m⟩]
          | _ => []
      else []
  | .breakLoop _ => []
  | .funcDecl declaration =>
    let closure : Closure := ⟨declaration, m.env, false⟩
    μ.making closure m ++ (functionValue closure m).after fun value m =>
      μ.declaring (declaration.name.getD declaration.keyword) (some value) m
  | .classDecl name none methods => μ.founding name methods none m
  | .classDecl name (some ref) methods =>
    .comes ⟨n, .lookUp ref, m⟩ :: (superclassOf ref m).after fun c m => μ.founding name methods (some c) m
  | .returnValue _ none => []
  | .returnValue _ (some e) => [.comes ⟨n, .evaluate e, m⟩]

/-- What happens while a value is called. -/
def calling (μ : Moment) (n : Nat) (given : List Value) (m : Machine) : Value → List Event
  | .function _ closure => [.comes ⟨n, .callClosure closure given, m⟩]
  | .classOf c => μ.creating n c given m
  | _ => []

/-- What happens at a moment itself. -/
def inside : Moment → List Event
  | ⟨n + 1, .evaluate e, m⟩ => evaluating ⟨n + 1, .evaluate e, m⟩ n m e
  | ⟨n + 1, .evaluateAll (e :: es), m⟩ =>
    .comes ⟨n, .evaluate e, m⟩ :: (evaluate n e m).after fun _ m => [.comes ⟨n, .evaluateAll es, m⟩]
  | ⟨n + 1, .call v paren given, m⟩ => calling ⟨n + 1, .call v paren given, m⟩ n given m v
  | ⟨n + 1, .callClosure c given, m⟩ => entering ⟨n + 1, .callClosure c given, m⟩ n c given m
  | ⟨n + 1, .execute s, m⟩ => executing ⟨n + 1, .execute s, m⟩ n m s
  | ⟨n + 1, .executeAll (s :: ss), m⟩ =>
    .comes ⟨n, .execute s, m⟩ :: (execute n s m).after fun completion m =>
      match completion with
      | .normal => [.comes ⟨n, .executeAll ss, m⟩]
      | _ => []
  | ⟨n, .program (.value e :: ss) _, m⟩ =>
    .comes ⟨n, .evaluate e, m⟩ :: (evaluate n e m).after fun v m => [.comes ⟨n, .program ss (some v), m⟩]
  | ⟨n, .program (s :: ss) last, m⟩ =>
    .comes ⟨n, .execute s, m⟩ :: (execute n s m).after fun _ m => [.comes ⟨n, .program ss last, m⟩]
  | ⟨n, .assign ref v, m⟩ =>
    let frame := (m.resolution[ref.id]?).elim (some Env.global.frame) m.env.ancestor?
    frame.elim [] fun frame => assigning ⟨n, .assign ref v, m⟩ frame ref.name.lexeme v m
  | ⟨n, .bind method this, m⟩ =>
    [.does ⟨n, .bind method this, m⟩ m (.opens method.env (Table.empty.insert "this" (some this)))]
  | _ => []

/-- To look a name up is one step. -/
theorem inside_lookUp (n : Nat) (ref : Ref) (m : Machine) : inside ⟨n, .lookUp ref, m⟩ = [] := by
  cases n <;> rfl

/-- An assignment writes in the frame that it finds, or nowhere. -/
theorem inside_assign (n : Nat) (ref : Ref) (v : Value) (m : Machine) :
    inside ⟨n, .assign ref v, m⟩ =
      ((m.resolution[ref.id]?).elim (some Env.global.frame) m.env.ancestor?).elim [] fun frame =>
        assigning ⟨n, .assign ref v, m⟩ frame ref.name.lexeme v m := by
  cases n <;> rfl

/-- To bind a method is to make the frame with its instance. -/
theorem inside_bind (n : Nat) (method : Closure) (this : Value) (m : Machine) :
    inside ⟨n, .bind method this, m⟩ = [.does ⟨n, .bind method this, m⟩ m
      (.opens method.env (Table.empty.insert "this" (some this)))] := by
  cases n <;> rfl

/-- A program that is over does nothing. -/
theorem inside_program_nil (n : Nat) (last : Option Value) (m : Machine) :
    inside ⟨n, .program [] last, m⟩ = [] := by
  cases n <;> rfl

/-- The value of a statement that hands it back is that of the program, if it is the last one. -/
theorem inside_shown (n : Nat) (e : Expr) (ss : List Stmt) (last : Option Value) (m : Machine) :
    inside ⟨n, .program (.value e :: ss) last, m⟩ =
      .comes ⟨n, .evaluate e, m⟩ :: (evaluate n e m).after fun v m =>
        [.comes ⟨n, .program ss (some v), m⟩] := by
  cases n <;> rfl

/-- A program goes on behind its first statement. -/
theorem inside_statement (n : Nat) {s : Stmt} (hs : ∀ e, s ≠ .value e) (ss : List Stmt)
    (last : Option Value) (m : Machine) :
    inside ⟨n, .program (s :: ss) last, m⟩ =
      .comes ⟨n, .execute s, m⟩ :: (execute n s m).after fun _ m => [.comes ⟨n, .program ss last, m⟩] := by
  rw [inside]
  exact hs

/-- How deep the moments within a moment can lie. -/
def depth : Moment → Nat
  | ⟨n, .program ss _, _⟩ => n + ss.length + 2
  | ⟨n, _, _⟩ => n + 1

/-- All that happens from a moment on until it is over, to a depth. -/
def logTo : Nat → Moment → List Event
  | 0, _ => []
  | k + 1, μ => .comes μ :: μ.inside.flatMap fun
    | .comes ν => logTo k ν
    | e => [e]

/-- All that happens from a moment on until it is over, in order. -/
def log (μ : Moment) : List Event := μ.logTo μ.depth

/-! ## What is logged of the moments

  The moments in a log are those to which calls lead, no more and no fewer. -/

/-- Behind an action that has been done, something more happens. -/
@[simp] theorem after_done {α : Type} (a : α) (m : Machine) (next : α → Machine → List Event) :
    (Ending.done a m).after next = next a m := rfl

/-- What happens behind an action happens where it has been done. -/
theorem mem_after {α : Type} {r : Ending Machine RuntimeError α} {next : α → Machine → List Event}
    {e : Event} : e ∈ r.after next ↔ ∃ a m, r = .done a m ∧ e ∈ next a m := by
  cases r with
  | done a m =>
    constructor
    · intro h
      exact ⟨a, m, rfl, h⟩
    · rintro ⟨_, _, ⟨⟩, h⟩
      exact h
  | failed e m => exact ⟨nofun, nofun⟩
  | exhausted => exact ⟨nofun, nofun⟩

section Comings

variable {μ ν : Moment} {n : Nat} {m : Machine}

theorem comes_mem_declaring {name : Token} {slot : Option Value} :
    Event.comes ν ∉ μ.declaring name slot m := by
  unfold declaring
  split <;> simp

theorem comes_mem_assigning {frame : Nat} {name : String} {value : Value} :
    Event.comes ν ∉ μ.assigning frame name value m := by
  unfold assigning
  split <;> simp

/-- Parameters are declared one after the other, and each is a deed. -/
theorem comes_mem_supplying {frame : Nat} {params : List Token} {given : List Value} :
    Event.comes ν ∉ μ.supplying frame params given m := by
  induction params, given, m using supplying.induct frame with
  | case1 param params value values m h => simp [supplying, h]
  | case2 param params value values m h ih => simpa [supplying, h] using ih
  | case3 params values m h => simp [supplying]

/-- The one moment in fetching a method is that at which it is bound. -/
theorem comes_mem_fetching {method : Closure} {this : Value} :
    Event.comes ν ∈ μ.fetching n method this m ↔ ν = ⟨n, .bind method this, m⟩ := by
  simp [fetching, mem_after, making]

/-- A property leads to a moment only if it is a method, and no field of the same name is in front of it. -/
theorem comes_mem_reading {value : Value} {name : Token} :
    Event.comes ν ∈ μ.reading n value name m ↔ ∃ id c method, value = .object id c ∧
      m.store.field? id name.lexeme = none ∧ c.method? name.lexeme = some method ∧
      name.lexeme ≠ "init" ∧ ν = ⟨n, .bind method value, m⟩ := by
  cases value with
  | object id c =>
    -- Only where there is no field and the method is not the initializer a method is bound.
    cases hfield : m.store.field? id name.lexeme with
    | some v => simp [reading, hfield]
    | none =>
      cases hmethod : c.method? name.lexeme with
      | none => simp [reading, hfield, hmethod]
      | some method =>
        by_cases hinit : name.lexeme = "init"
        · rw [hinit] at hfield hmethod
          simp [reading, hinit, hfield, hmethod]
        · constructor
          · intro h
            simp only [reading, hfield, hmethod, hinit, List.mem_cons, reduceCtorEq, false_or, if_false,
              comes_mem_fetching] at h
            exact ⟨id, c, method, rfl, hfield, hmethod, hinit, h⟩
          · rintro ⟨_, _, _, ⟨⟩, -, hmethod', -, rfl⟩
            cases hmethod.symm.trans hmethod'
            simp [reading, hfield, hmethod, hinit, comes_mem_fetching]
  | _ => simp [reading]

/-- In the statement of a class the one moment is that of its superclass, which comes before. -/
theorem comes_mem_founding {name : Token} {methods : List FunctionDecl} {parent : Option Class} :
    Event.comes ν ∉ μ.founding name methods parent m := by
  intro h
  -- The statement has four parts, and each of them is a deed or none.
  simp only [founding, List.mem_append, mem_after, List.mem_cons, reduceCtorEq, false_or] at h
  rcases h with h | ⟨_, m₁, -, h | ⟨around, m₂, -, _, m₃, -, h⟩⟩
  · exact comes_mem_declaring h
  · cases parent with
    | none => cases h
    | some c => simp [surrounding] at h
  · exact comes_mem_assigning h

/-- So it is for every form of expressions. -/
theorem calls_of_evaluating {e : Expr} (h : Event.comes ν ∈ evaluating μ n m e) :
    Calls ⟨n + 1, .evaluate e, m⟩ ν := by
  -- An event in the list is one of those that stand in it, or one behind a part that has been done: for each
  -- of them there is a constructor of `Calls`, with the same conditions.
  cases e with
  | literal value => cases h
  | grouping inner =>
    cases List.mem_singleton.mp h
    exact .grouping
  | unary operator right =>
    cases List.mem_singleton.mp h
    exact .operand
  | binary left operator right =>
    simp only [evaluating, List.mem_cons, mem_after, List.not_mem_nil, or_false] at h
    rcases h with h | ⟨v, m', hx, h⟩
    · cases h
      exact .left
    · cases h
      exact .right hx
  | logical left operator right =>
    simp only [evaluating, List.mem_cons, mem_after] at h
    rcases h with h | ⟨v, m', hx, h⟩
    · cases h
      exact .leftLogical
    · cases hshort : Operator.shortCircuits operator.kind v with
      | true => simp [hshort] at h
      | false =>
        simp only [hshort, Bool.false_eq_true, if_false, List.mem_singleton] at h
        cases h
        exact .rightLogical hx hshort
  | ternary condition thenBranch elseBranch =>
    simp only [evaluating, List.mem_cons, mem_after] at h
    rcases h with h | ⟨v, m', hx, h⟩
    · cases h
      exact .condition
    · cases htruthy : v.truthy with
      | true =>
        simp only [htruthy, if_true, List.mem_singleton] at h
        cases h
        exact .thenValue hx htruthy
      | false =>
        simp only [htruthy, Bool.false_eq_true, if_false, List.mem_singleton] at h
        cases h
        exact .elseValue hx htruthy
  | «variable» ref =>
    cases List.mem_singleton.mp h
    exact .variable
  | assign ref value =>
    simp only [evaluating, List.mem_cons, mem_after, List.not_mem_nil, or_false] at h
    rcases h with h | ⟨v, m', hx, h⟩
    · cases h
      exact .assigned
    · cases h
      exact .assigns hx
  | call callee paren arguments =>
    simp only [evaluating, List.mem_cons, mem_after, List.not_mem_nil, or_false] at h
    rcases h with h | ⟨v, m', hx, h | ⟨vs, m'', hx', h⟩⟩
    · cases h
      exact .callee
    · cases h
      exact .arguments hx
    · cases h
      exact .call hx hx'
  | get object name =>
    simp only [evaluating, List.mem_cons, mem_after, comes_mem_reading] at h
    rcases h with h | ⟨v, m', hx, id, c, method, rfl, hfield, hmethod, hinit, h⟩
    · cases h
      exact .object
    · cases h
      exact .method hx hfield hmethod hinit
  | set object name value =>
    simp only [evaluating, List.mem_cons, mem_after] at h
    rcases h with h | ⟨v, m', hx, h⟩
    · cases h
      exact .target
    · cases v with
      | object id c =>
        simp only [List.mem_cons, mem_after, reduceCtorEq, List.not_mem_nil, or_self,
          and_false, exists_false, or_false] at h
        cases h
        exact .field hx
      | _ => cases h
  | lambda declaration => simp [evaluating, making] at h
  | this ref =>
    cases List.mem_singleton.mp h
    exact .this
  | super ref method =>
    -- A method is fetched only if the superclass and the instance have both been found, and it is one of the
    -- superclass.
    rw [evaluating, readingSuper] at h
    split at h
    · cases h
    · rename_i distance hdistance
      split at h
      · rename_i hclass hthis
        split at h
        · rename_i hfound
          cases comes_mem_fetching.mp h
          exact .superMethod hdistance hclass hthis hfound
        · cases h
      · cases h

/-- So it is for every form of statements. -/
theorem calls_of_executing {s : Stmt} (h : Event.comes ν ∈ executing ⟨n + 1, .execute s, m⟩ n m s) :
    Calls ⟨n + 1, .execute s, m⟩ ν := by
  -- The events of a statement are written out, and for each moment among them there is a rule.
  cases s with
  | expression value =>
    cases List.mem_singleton.mp h
    exact .expression
  | value value =>
    cases List.mem_singleton.mp h
    exact .value
  | varDecl name initializer =>
    cases initializer with
    | none => exact absurd h comes_mem_declaring
    | some e =>
      simp only [executing, List.mem_cons, mem_after, comes_mem_declaring, and_false, exists_false,
        or_false] at h
      cases h
      exact .initializer
  | block body =>
    simp only [executing, List.mem_cons, reduceCtorEq, false_or, mem_after, List.not_mem_nil,
      or_false] at h
    obtain ⟨env, m', hx, h⟩ := h
    cases h
    exact .block hx
  | ifElse condition thenBranch elseBranch =>
    simp only [executing, List.mem_cons, mem_after] at h
    rcases h with h | ⟨v, m', hx, h⟩
    · cases h
      exact .decision
    · cases htruthy : v.truthy with
      | true =>
        simp only [htruthy, if_true, List.mem_singleton] at h
        cases h
        exact .thenBranch hx htruthy
      | false =>
        simp only [htruthy, Bool.false_eq_true, if_false] at h
        cases elseBranch with
        | none => cases h
        | some branch =>
          cases List.mem_singleton.mp h
          exact .elseBranch hx htruthy
  | whileLoop condition body =>
    simp only [executing, List.mem_cons, mem_after] at h
    rcases h with h | ⟨v, m', hx, h⟩
    · cases h
      exact .test
    · cases htruthy : v.truthy with
      | false => simp [htruthy] at h
      | true =>
        simp only [htruthy, if_true, List.mem_cons, mem_after] at h
        rcases h with h | ⟨completion, m'', hx', h⟩
        · cases h
          exact .round hx htruthy
        · cases completion with
          | normal =>
            cases List.mem_singleton.mp h
            exact .again hx htruthy hx'
          | _ => cases h
  | breakLoop keyword => cases h
  | funcDecl declaration =>
    simp [executing, making, mem_after, comes_mem_declaring] at h
  | classDecl name superclass methods =>
    cases superclass with
    | none => exact absurd h comes_mem_founding
    | some ref =>
      simp only [executing, List.mem_cons, mem_after, comes_mem_founding, and_false, exists_false,
        or_false] at h
      cases h
      exact .superclass
  | returnValue keyword value =>
    cases value with
    | none => cases h
    | some e =>
      cases List.mem_singleton.mp h
      exact .returned

/-- The moments that are named at a moment are those that it comes to directly. -/
theorem calls_of_inside (h : Event.comes ν ∈ μ.inside) : Calls μ ν := by
  -- A moment without fuel names nothing; with fuel it is one of the forms above.
  obtain ⟨n, activity, m⟩ := μ
  cases activity with
  | evaluate e =>
    cases n with
    | zero => cases h
    | succ n => exact calls_of_evaluating h
  | evaluateAll es =>
    cases n with
    | zero => cases h
    | succ n =>
      cases es with
      | nil => cases h
      | cons e es =>
        simp only [inside, List.mem_cons, mem_after, List.not_mem_nil, or_false] at h
        rcases h with h | ⟨v, m', hx, h⟩
        · cases h
          exact .firstExpr
        · cases h
          exact .otherExprs hx
  | call v paren given =>
    cases n with
    | zero => cases h
    | succ n =>
      cases v with
      | function id closure =>
        cases List.mem_singleton.mp h
        exact .closure
      | classOf c =>
        simp only [inside, calling, creating, List.mem_cons, reduceCtorEq, false_or, mem_after] at h
        obtain ⟨id, m', hx, h⟩ := h
        cases hm : c.method? "init" with
        | none => simp [hm] at h
        | some init =>
          simp only [hm, List.mem_cons, mem_after, List.not_mem_nil, or_false] at h
          rcases h with h | ⟨ready, m'', hx', h⟩
          · cases h
            exact .created hx hm
          · cases h
            exact .initializes hx hm hx'
      | _ => cases h
  | callClosure c given =>
    cases n with
    | zero => cases h
    | succ n =>
      simp only [inside, entering, List.mem_cons, reduceCtorEq, false_or, mem_after, List.mem_append,
        comes_mem_supplying, List.not_mem_nil, or_false] at h
      obtain ⟨env, m', hx, _, m'', hx', h⟩ := h
      cases h
      exact .body hx hx'
  | execute s =>
    cases n with
    | zero => cases h
    | succ n => exact calls_of_executing h
  | executeAll ss =>
    cases n with
    | zero => cases h
    | succ n =>
      cases ss with
      | nil => cases h
      | cons s ss =>
        simp only [inside, List.mem_cons, mem_after] at h
        rcases h with h | ⟨completion, m', hx, h⟩
        · cases h
          exact .firstStmt
        · cases completion with
          | normal =>
            cases List.mem_singleton.mp h
            exact .otherStmts hx
          | _ => cases h
  | program ss last =>
    cases ss with
    | nil => simp [inside_program_nil] at h
    | cons s ss =>
      -- A program keeps the value of such a statement, and runs any other.
      by_cases hs : ∃ e, s = .value e
      · obtain ⟨e, rfl⟩ := hs
        simp only [inside_shown, List.mem_cons, mem_after, List.not_mem_nil, or_false] at h
        rcases h with h | ⟨v, m', hx, h⟩
        · cases h
          exact .shown
        · cases h
          exact .behindShown hx
      · have hs' : ∀ e, s ≠ .value e := fun e he => hs ⟨e, he⟩
        rw [inside_statement n hs'] at h
        simp only [List.mem_cons, mem_after, List.not_mem_nil, or_false] at h
        rcases h with h | ⟨completion, m', hx, h⟩
        · cases h
          exact .statement hs'
        · cases h
          exact .behindStatement hs' hx
  | lookUp ref => simp [inside_lookUp] at h
  | assign ref v =>
    rw [inside_assign] at h
    generalize (m.resolution[ref.id]?).elim (some Env.global.frame) m.env.ancestor? = frame at h
    cases frame with
    | none => cases h
    | some frame => exact absurd h comes_mem_assigning
  | bind method this => simp [inside_bind] at h

/-- The moments that a moment comes to directly are named. -/
theorem inside_of_calls (h : Calls μ ν) : Event.comes ν ∈ μ.inside := by
  -- The cases are those of `Calls`; all but a few are computed.
  cases h with
  | method hx hfield hmethod hinit =>
    refine List.mem_cons_of_mem _ (mem_after.mpr ⟨_, _, hx, ?_⟩)
    exact comes_mem_reading.mpr ⟨_, _, _, rfl, hfield, hmethod, hinit, rfl⟩
  | superMethod hdistance hclass hthis hfound =>
    simp [inside, evaluating, readingSuper, hdistance, hclass, hthis, hfound, comes_mem_fetching]
  | body hx hx' => simp [inside, entering, hx, hx']
  | statement hs =>
    rw [inside_statement _ hs]
    exact List.mem_cons_self
  | behindStatement hs hx =>
    rw [inside_statement _ hs]
    exact List.mem_cons_of_mem _ (mem_after.mpr ⟨_, _, hx, List.mem_singleton_self _⟩)
  | _ => simp_all [inside, evaluating, executing, calling, creating]

end Comings

theorem depth_pos (μ : Moment) : 0 < μ.depth := by
  obtain ⟨n, activity, m⟩ := μ
  cases activity <;> exact Nat.succ_pos _

/-- The moments within a moment lie less deep. -/
theorem depth_lt_of_calls {μ ν : Moment} (h : Calls μ ν) : ν.depth < μ.depth := by
  cases h <;> simp only [depth, List.length_cons] <;> omega

/-- What is logged happens at a moment that is led to. -/
theorem leads_of_mem_log {k : Nat} {μ : Moment} {e : Event} (h : e ∈ μ.logTo k) :
    ∃ ν, μ.Leads ν ∧ (e = .comes ν ∨ e ∈ ν.inside) := by
  induction k generalizing μ with
  | zero => cases h
  | succ k ih =>
    rcases List.mem_cons.mp h with rfl | h
    · exact ⟨μ, .refl, .inl rfl⟩
    · obtain ⟨e', he', h⟩ := List.mem_flatMap.mp h
      cases e' with
      | comes ν =>
        obtain ⟨ν', hleads, hν'⟩ := ih h
        exact ⟨ν', hleads.head (calls_of_inside he'), hν'⟩
      | does ν m deed =>
        cases List.mem_singleton.mp h
        exact ⟨μ, .refl, .inr he'⟩

/-- The moments that are led to are logged, and so is what happens at them. -/
theorem mem_logTo_of_leads {k : Nat} {μ ν : Moment} (hk : μ.depth ≤ k) (h : μ.Leads ν) :
    .comes ν ∈ μ.logTo k ∧ ∀ m deed, .does ν m deed ∈ ν.inside → .does ν m deed ∈ μ.logTo k := by
  induction h using Relation.ReflTransGen.head_induction_on generalizing k with
  | refl =>
    obtain ⟨k, rfl⟩ : ∃ j, k = j + 1 := ⟨k - 1, by have := depth_pos ν; omega⟩
    refine ⟨List.mem_cons_self, fun m deed h => List.mem_cons_of_mem _ ?_⟩
    exact List.mem_flatMap.mpr ⟨_, h, List.mem_singleton_self _⟩
  | head hcalls hleads ih =>
    rename_i μ κ
    have hlt := depth_lt_of_calls hcalls
    obtain ⟨k, rfl⟩ : ∃ j, k = j + 1 := ⟨k - 1, by omega⟩
    obtain ⟨hcomes, hdoes⟩ := ih (k := k) (by omega)
    have hopen : ∀ e ∈ Moment.logTo k κ, e ∈ Moment.logTo (k + 1) μ := fun e he =>
      List.mem_cons_of_mem _ (List.mem_flatMap.mpr ⟨_, inside_of_calls hcalls, he⟩)
    exact ⟨hopen _ hcomes, fun m deed h => hopen _ (hdoes m deed h)⟩

end Moment

end Lox
