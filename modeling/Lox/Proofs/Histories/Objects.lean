import Mathlib
import Lox.Proofs.Histories.Turns

/-!
  Instances, as their history tells.

  What a property of an instance is, is read off the events before.  A field has the value that was
  stored to it last, whatever methods there are of that name.  Else the classes are asked, the nearest
  first, and each for the last of its methods of that name (`Reads`).  An instance is of one class for
  ever and a class has one chain for ever, on which each class came to be before the one that extends
  it.  All of this holds at every event of every accepted turn (`object_model`).

  None of it mentions a table of fields or a table of methods.  What was stored last is asked of the events
  (`lastStored`), and what methods a class has is asked of the statement at which it came to be
  (`ClassBody.Text`), so the account is one of the program, and the tables of the machine are compared with
  it: those of fields since every store is an event, those of methods since a class is made at one statement
  only and never changed.  An expression that reads or stores a property first evaluates others, which may do
  anything; `Gets` and `Sets` say what happens on the machine that these leave behind.
-/

namespace Lox

open Machine Eval

/-! ## Methods

  The method of a name that is found is the last one of that name in the nearest class that has any. -/

/-- The last of the methods that have the name. -/
def LastNamed (methods : List FunctionDecl) (name : String) (d : FunctionDecl) : Prop :=
  ∃ before after, methods = before ++ d :: after ∧ d.displayName = name ∧
    ∀ d' ∈ after, d'.displayName ≠ name

/-- The class has come about at a statement with these methods; they see `around`. -/
def ClassBody.Text (h : List Event) (body : ClassBody) (methods : List FunctionDecl) (around : Env) :
    Prop :=
  ∃ n name superclass m, .comes ⟨n, .execute (.classDecl name superclass methods), m⟩ ∈ h ∧
    body.name = name.lexeme ∧ body.methods = methodTable methods around

/-- The text of the class has no method of that name. -/
def ClassBody.Lacks (h : List Event) (body : ClassBody) (name : String) : Prop :=
  ∃ methods around, body.Text h methods around ∧ ∀ d ∈ methods, d.displayName ≠ name

/-- The nearest class of a chain whose text has methods of that name has this one last. -/
inductive Finds (h : List Event) (chain : List ClassBody) (name : String) (d : FunctionDecl)
    (around : Env) : Prop where
  | nearest {nearer : List ClassBody} {body : ClassBody} {farther : List ClassBody}
      {methods : List FunctionDecl} : chain = nearer ++ body :: farther →
    (∀ k ∈ nearer, ClassBody.Lacks h k name) → body.Text h methods around → LastNamed methods name d →
    Finds h chain name d around

/-- How the method of a name is found in classes that have come about. -/
theorem findSome?_methods {h : List Event} (name : String) {chain : List ClassBody}
    (htext : ∀ k ∈ chain, ∃ methods around, ClassBody.Text h k methods around) :
    (∃ d around, Finds h chain name d around ∧
      chain.findSome? (·.methods.get? name) = some ⟨d, around, d.isInitializer⟩) ∨
    ((∀ k ∈ chain, ClassBody.Lacks h k name) ∧ chain.findSome? (·.methods.get? name) = none) := by
  induction chain with
  | nil => exact .inr ⟨nofun, rfl⟩
  | cons body rest ih =>
    obtain ⟨methods, around, hbody⟩ := htext body List.mem_cons_self
    -- The table of a class has the last method of a name, since later ones are written over earlier ones.
    have hget : body.methods.get? name =
        (methods.reverse.find? (·.displayName = name)).map fun d => ⟨d, around, d.isInitializer⟩ := by
      obtain ⟨-, -, -, -, -, -, hmethods⟩ := hbody
      rw [hmethods, methodTable_get?]
    rw [List.findSome?_cons, hget]
    cases hfind : methods.reverse.find? (·.displayName = name) with
    | some d =>
      obtain ⟨hd, after, before, hsplit, hafter⟩ := List.find?_eq_some_iff_append.mp hfind
      have hmethods : methods = before.reverse ++ d :: after.reverse := by
        rw [← List.reverse_reverse methods, hsplit]
        simp
      have hlast : LastNamed methods name d := by
        refine ⟨before.reverse, after.reverse, hmethods, of_decide_eq_true hd, fun d' hd' => ?_⟩
        simpa using hafter d' (List.mem_reverse.mp hd')
      exact .inl ⟨d, around, @Finds.nearest _ _ _ _ _ [] body rest methods rfl nofun hbody hlast, rfl⟩
    | none =>
      have hlacks : body.Lacks h name := by
        refine ⟨methods, around, hbody, fun d hd heq => ?_⟩
        have hnone := List.find?_eq_none.mp hfind d (List.mem_reverse.mpr hd)
        exact hnone (decide_eq_true heq)
      rcases ih fun k hk => htext k (List.mem_cons_of_mem _ hk) with
        ⟨d, around', ⟨hchain, hnearer, htext', hlast⟩, hfound⟩ | ⟨hrest, hnone⟩
      · rename_i nearer body' farther methods'
        refine .inl ⟨d, around', @Finds.nearest _ _ _ _ _ (body :: nearer) body' farther methods'
          (by rw [hchain]; rfl) ?_ htext' hlast, hfound⟩
        exact List.forall_mem_cons.mpr ⟨hlacks, hnearer⟩
      · exact .inr ⟨List.forall_mem_cons.mpr ⟨hlacks, hrest⟩, hnone⟩

section Known

variable {h : List Event} {m : Machine}

/-- The classes of the chain of a known class have come about at statements. -/
theorem Chronicle.chain_text (hc : Chronicle h) {c : Class} (hk : Value.Known h (.classOf c)) :
    ∀ k ∈ c.chain, ∃ methods around, ClassBody.Text h k methods around := by
  intro k hmem
  obtain ⟨nearer, farther, hchain⟩ := List.append_of_mem hmem
  obtain ⟨μ, parent, around, hclass⟩ := hc.class_grounded (hc.chain_known hk hchain)
  obtain ⟨n, name, superclass, methods, m, m', hμ, -, hname, hmethods⟩ := hclass.stated
  exact ⟨methods, around, n, name, superclass, m, hμ ▸ hclass.come, hname, hmethods⟩

/-- The classes of the chain of a known class have identities that have been given out. -/
theorem Chronicle.chain_lt (hc : Chronicle h) {c : Class} (hk : Value.Known h (.classOf c)) :
    ∀ k ∈ c.chain, k.identity < (replay h).nextIdentity := by
  intro k hmem
  obtain ⟨nearer, farther, hchain⟩ := List.append_of_mem hmem
  obtain ⟨μ, m, hmade⟩ := hc.chain_known hk hchain
  exact hc.mark_lt hmade rfl

/-- A class came to be before those that extend it, so that its identity is less. -/
theorem Chronicle.chain_descends (hc : Chronicle h) {c : Class} (hk : Value.Known h (.classOf c)) :
    c.chain.Pairwise fun a b => b.identity < a.identity := by
  induction hc generalizing c with
  | start =>
    obtain ⟨μ, m, hmem⟩ := hk
    cases hmem
  | @event h e hc he ih =>
    obtain ⟨μ, m, hmem⟩ := hk
    -- The class is old, or it is the one that has just been made, with the largest identity so far.
    rcases List.mem_append.mp hmem with hold | hnew
    · exact ih ⟨μ, m, hold⟩
    · cases List.mem_singleton.mp hnew
      obtain ⟨⟨parent, around, hclass⟩, hmark⟩ := he.matter
      have hown : c.own.identity = m.store.nextIdentity := hmark _ _ rfl
      have hstore : m.store = replay h := he.store
      show (c.own :: c.ancestors).Pairwise _
      rw [hclass.chain]
      cases parent with
      | none => exact List.pairwise_singleton _ _
      | some p =>
        have hp := (hclass.super p rfl).1
        refine List.pairwise_cons.mpr ⟨fun k hkp => ?_, ih hp⟩
        rw [hown, hstore]
        exact hc.chain_lt hp k hkp

end Known

/-! ## Properties

  What reading a property comes to, by what the history has stored last and what the classes declare. -/

/-- How a property of an instance of the class is read, after the events. -/
inductive Reads (h : List Event) (m : Machine) (id : Nat) (c : Class) (name : Token) :
    Ending Machine RuntimeError Value → Prop where
  /-- What was stored to the field last is read, whatever methods there are. -/
  | field {v : Value} : lastStored h id name.lexeme = some v → Reads h m id c name (.done v m)
  /-- Nothing was stored, and the name is that of an initializer. -/
  | initializer {d : FunctionDecl} {around : Env} {e : RuntimeError} :
    lastStored h id name.lexeme = none → Finds h c.chain name.lexeme d around → name.lexeme = "init" →
    e.token = name → e.message = "Can't call an initializer directly." →
    Reads h m id c name (.failed e m)
  /-- Nothing was stored, and there is a method: it is newly bound to the instance, in a frame of its
      own inside what the methods of its class see. -/
  | method {d : FunctionDecl} {around : Env} : lastStored h id name.lexeme = none →
    Finds h c.chain name.lexeme d around → name.lexeme ≠ "init" →
    Reads h m id c name (.done
      (.function m.store.nextIdentity ⟨d, around.extend m.store.frames.size, d.isInitializer⟩)
      { m with store := ⟨m.store.frames.push (Table.empty.insert "this" (some (.object id c))),
        m.store.objects, m.store.nextIdentity + 1⟩ })
  /-- Nothing was stored, and there is no method. -/
  | undefined {e : RuntimeError} : lastStored h id name.lexeme = none →
    (∀ k ∈ c.chain, ClassBody.Lacks h k name.lexeme) → e.token = name →
    e.message = "Undefined property '" ++ name.lexeme ++ "'." → Reads h m id c name (.failed e m)

section Inversion

variable {h : List Event} {m m' : Machine} {id : Nat} {c : Class} {name : Token} {v : Value}

/-- What is read without a new frame is a field. -/
theorem Reads.stored (hr : Reads h m id c name (.done v m)) : lastStored h id name.lexeme = some v := by
  generalize hresult : Ending.done v m = r at hr
  cases hr with
  | field hstored =>
    cases hresult
    exact hstored
  | method _ _ _ =>
    have hsize := congrArg (·.store.frames.size) (Ending.done.inj hresult).2
    simp at hsize
  | initializer _ _ _ _ _ | undefined _ _ _ _ => cases hresult

/-- What is read with a new frame is a method that a class of the chain has. -/
theorem Reads.found (hr : Reads h m id c name (.done v m'))
    (hgrown : m.store.frames.size < m'.store.frames.size) :
    ∃ d around, Finds h c.chain name.lexeme d around ∧ v = .function m.store.nextIdentity
      ⟨d, around.extend m.store.frames.size, d.isInitializer⟩ := by
  generalize hresult : Ending.done v m' = r at hr
  cases hr with
  | field _ =>
    cases hresult
    exact absurd hgrown (Nat.lt_irrefl _)
  | @method d around _ hfinds _ =>
    cases hresult
    exact ⟨d, around, hfinds, rfl⟩
  | initializer _ _ _ _ _ | undefined _ _ _ _ => cases hresult

end Inversion

/-- A property is read as the history tells. -/
theorem getProperty_reads {h : List Event} {m : Machine} (hr : Reached h m) {id : Nat} {c : Class}
    (hk : Value.Known h (.object id c)) (name : Token) :
    Reads h m id c name (getProperty (.object id c) name m) := by
  have hclass : Value.Known h (.classOf c) := by
    obtain ⟨μ, m', hmem⟩ := hk
    obtain ⟨before, after, rfl⟩ := List.append_of_mem hmem
    have hknown : Value.Known before (.classOf c) := (hr.chronicle.grounded rfl).2.matter.1
    exact hknown.mono (List.subset_append_left _ _)
  -- The store shows what the history has stored last.
  have hfield : m.store.field? id name.lexeme = lastStored h id name.lexeme := by
    rw [hr.store]
    exact hr.chronicle.field?_eq id name.lexeme
  rw [getProperty_run, hfield]
  cases hstored : lastStored h id name.lexeme with
  | some v => exact .field hstored
  | none =>
    rcases findSome?_methods name.lexeme (hr.chronicle.chain_text hclass) with
      ⟨d, around, hfinds, hfound⟩ | ⟨hlacks, hnone⟩
    · have hmethod : c.method? name.lexeme = some ⟨d, around, d.isInitializer⟩ := hfound
      rw [hmethod]
      by_cases hinit : name.lexeme = "init"
      · simp only [hinit, if_true]
        exact .initializer hstored hfinds hinit rfl rfl
      · simp only [hinit, if_false]
        exact .method hstored hfinds hinit
    · have hmethod : c.method? name.lexeme = none := hnone
      rw [hmethod]
      exact .undefined hstored hlacks rfl rfl

/-- How an expression that reads a property is evaluated, after the events. -/
inductive Gets (h : List Event) (m : Machine) (n : Nat) (o : Expr) (name : Token) :
    Ending Machine RuntimeError Value → Prop where
  /-- A failure of the object is one of the whole, and nothing else changes. -/
  | failed {e : RuntimeError} {m' : Machine} : evaluate n o m = .failed e m' →
    Gets h m n o name (.failed e m')
  | exhausted : evaluate n o m = .exhausted → Gets h m n o name .exhausted
  /-- What is no instance has no properties, and nothing else changes. -/
  | noInstance {v : Value} {m' : Machine} : evaluate n o m = .done v m' → (∀ id c, v ≠ .object id c) →
    Gets h m n o name (.failed ⟨name, .noProperties⟩ m')
  /-- A property of an instance is read as what has happened up to then tells. -/
  | reads {id : Nat} {c : Class} {m' : Machine} {r : Ending Machine RuntimeError Value} :
    evaluate n o m = .done (.object id c) m' →
    Value.Known (h ++ Moment.log ⟨n, .evaluate o, m⟩) (.object id c) →
    Reads (h ++ Moment.log ⟨n, .evaluate o, m⟩) m' id c name r → Gets h m n o name r

/-- How an expression that stores to a field is evaluated. -/
inductive Sets (m : Machine) (n : Nat) (o : Expr) (name : Token) (e : Expr) :
    Ending Machine RuntimeError Value → Prop where
  | targetFailed {error : RuntimeError} {m' : Machine} : evaluate n o m = .failed error m' →
    Sets m n o name e (.failed error m')
  | targetExhausted : evaluate n o m = .exhausted → Sets m n o name e .exhausted
  /-- What is no instance has no fields; the value is not evaluated, and nothing else changes. -/
  | noInstance {v : Value} {m' : Machine} : evaluate n o m = .done v m' → (∀ id c, v ≠ .object id c) →
    Sets m n o name e (.failed ⟨name, .noFields⟩ m')
  | valueFailed {id : Nat} {c : Class} {m' : Machine} {error : RuntimeError} {m'' : Machine} :
    evaluate n o m = .done (.object id c) m' → evaluate n e m' = .failed error m'' →
    Sets m n o name e (.failed error m'')
  | valueExhausted {id : Nat} {c : Class} {m' : Machine} : evaluate n o m = .done (.object id c) m' →
    evaluate n e m' = .exhausted → Sets m n o name e .exhausted
  /-- The one field of the one instance has the value then, and nothing else changes. -/
  | stores {id : Nat} {c : Class} {m' m'' : Machine} {v : Value} {objects : Array (Table Value)} :
    evaluate n o m = .done (.object id c) m' → evaluate n e m' = .done v m'' →
    (∀ id' x, (Store.mk m''.store.frames objects m''.store.nextIdentity).field? id' x =
      if id = id' ∧ name.lexeme = x then some v else m''.store.field? id' x) →
    Sets m n o name e (.done v { m'' with store := ⟨m''.store.frames, objects, m''.store.nextIdentity⟩ })

section Expressions

variable {h : List Event} {m : Machine}

/-- What an expression comes to is known, and the machine behind it is reached in its log. -/
theorem Reached.evaluated (hr : Reached h m) {n : Nat} {e : Expr} {v : Value} {m' : Machine}
    (hx : evaluate n e m = .done v m') :
    Reached (h ++ Moment.log ⟨n, .evaluate e, m⟩) m' ∧
      v.Known (h ++ Moment.log ⟨n, .evaluate e, m⟩) := by
  have htells := (tells (n + 1)).evaluate (Nat.lt_succ_self n) hr e
  have hlog : opened (n + 1) [.comes ⟨n, .evaluate e, m⟩] = Moment.log ⟨n, .evaluate e, m⟩ :=
    List.append_nil _
  unfold Tells at htells
  rw [hlog, hx] at htells
  exact htells.2

/-- So is what an expression reads. -/
theorem Reached.gets (hr : Reached h m) (n : Nat) (o : Expr) (name : Token) :
    Gets h m n o name (evaluate (n + 1) (.get o name) m) := by
  have hrun : evaluate (n + 1) (.get o name) m =
      (evaluate n o >>= fun value => getProperty value name) m := rfl
  rw [hrun]
  cases hx : evaluate n o m with
  | failed e m' =>
    rw [Action.bind_of_failed hx]
    exact .failed hx
  | exhausted =>
    rw [Action.bind_of_exhausted hx]
    exact .exhausted hx
  | done v m' =>
    rw [Action.bind_of_done hx]
    obtain ⟨hr', hk⟩ := hr.evaluated hx
    cases v with
    | object id c => exact .reads hx hk (getProperty_reads hr' hk name)
    | _ => exact .noInstance hx nofun

/-- How an assignment to a property is evaluated. -/
theorem evaluate_set (n : Nat) (o : Expr) (name : Token) (e : Expr) (m : Machine) :
    evaluate (n + 1) (.set o name e) m = (do
      match ← evaluate n o with
      | .object identity _ =>
        let v ← evaluate n e
        setField identity name v
        pure v
      | _ => failAt name .noFields : Eval Value) m :=
  rfl

/-- A field is stored as the expression says, and nothing else happens. -/
theorem Reached.sets (hr : Reached h m) (n : Nat) (o : Expr) (name : Token) (e : Expr) :
    Sets m n o name e (evaluate (n + 1) (.set o name e) m) := by
  rw [evaluate_set]
  cases hx : evaluate n o m with
  | failed error m' =>
    rw [Action.bind_of_failed hx]
    exact .targetFailed hx
  | exhausted =>
    rw [Action.bind_of_exhausted hx]
    exact .targetExhausted hx
  | done v m' =>
    rw [Action.bind_of_done hx]
    obtain ⟨hr', hk⟩ := hr.evaluated hx
    cases v with
    | object id c =>
      dsimp only
      cases hx' : evaluate n e m' with
      | failed error m'' =>
        rw [Action.bind_of_failed hx']
        exact .valueFailed hx hx'
      | exhausted =>
        rw [Action.bind_of_exhausted hx']
        exact .valueExhausted hx hx'
      | done v m'' =>
        rw [Action.bind_of_done hx']
        obtain ⟨hr'', -⟩ := hr'.evaluated hx'
        obtain ⟨μ, m₀, hmade⟩ := hk.mono (List.subset_append_left _ (Moment.log ⟨n, .evaluate e, m'⟩))
        have hlt : id < m''.store.objects.size := by
          rw [hr''.store]
          exact hr''.chronicle.mark_lt hmade rfl
        exact .stores hx hx' (Store.field?_putField m''.store hlt name.lexeme v)
    | _ => exact .noInstance hx nofun

end Expressions

/-! ## The object model -/

/-- What instances and classes are like on a machine that has been reached in the events. -/
structure ObjectModel (h : List Event) (m : Machine) : Prop where
  /-- What variables and fields hold came to be in one of the events, if it has an identity. -/
  slots : ∀ f x v, m.store.slot? f x = some (some v) → v.Known h
  fields : ∀ id x v, m.store.field? id x = some v → v.Known h
  /-- What is the same is equal: an instance is of one class for ever, a class has one chain for
      ever. -/
  unchanged : ∀ v v' : Value, v.Known h → v'.Known h → v.mark ≠ none → v.same v' = true → v = v'
  /-- A class came to be at its statement, with the chain of the class that it extends. -/
  classes : ∀ c, Value.Known h (.classOf c) → ∃ earlier μ m' later parent around,
    h = earlier ++ .does μ m' (.makes (.classOf c)) :: later ∧ Class.Grounded earlier μ c parent around
  /-- A class came to be before those that extend it. -/
  chains : ∀ c, Value.Known h (.classOf c) → c.chain.Pairwise fun a b => b.identity < a.identity
  /-- Of an instance a field is read, or else a method, or there is an error. -/
  reads : ∀ id c name, Value.Known h (.object id c) → Reads h m id c name (getProperty (.object id c) name m)
  gets : ∀ n o name, Gets h m n o name (evaluate (n + 1) (.get o name) m)
  /-- A store changes one field of one instance. -/
  sets : ∀ n o name e, Sets m n o name e (evaluate (n + 1) (.set o name e) m)

/-- **The object model holds at every event of every accepted turn**, whatever has happened in the
    session before. -/
theorem object_model {interactive : Bool} {host : Host} {dealings : List Dealing} {t : Turn}
    (h : (Session.start interactive host).History dealings t.session) (ha : t.Accepted)
    {done rest : List Event} {e : Event} (hlog : t.opening.log = done ++ e :: rest) :
    ObjectModel (historyOf (turnsOf dealings) ++ done) e.machine := by
  obtain ⟨hr, -⟩ := reached_in_turn h ha hlog
  exact {
    slots := fun f x v hv => hr.chronicle.slot_known (hr.store ▸ hv)
    fields := fun id x v hv => hr.chronicle.field_known (hr.store ▸ hv)
    unchanged := fun v v' hv hv' hsome hsame => hr.chronicle.eq_of_same hv hv' hsome hsame
    classes := fun c hc => by
      obtain ⟨μ, m, hmem⟩ := hc
      obtain ⟨earlier, later, hsplit⟩ := List.append_of_mem hmem
      obtain ⟨parent, around, hclass⟩ := (hr.chronicle.grounded hsplit).2.matter.1
      exact ⟨earlier, μ, m, later, parent, around, hsplit, hclass⟩
    chains := fun c hc => hr.chronicle.chain_descends hc
    reads := fun id c name hk => getProperty_reads hr hk name
    gets := hr.gets
    sets := hr.sets }

/-! ## A field stored through another variable -/

namespace Aliased

/-- An instance of a class that extends another is held by two variables.  A field is stored to it through
    the second and read through the first, and so is a method of the class that is extended. -/
def turn : Turn :=
  ⟨.start false ⟨[], #[], .whole, fun _ => 0, 0⟩, 9,
    "class A \x7b func m() \x7b\x7d \x7d class B < A \x7b\x7d var o = B(); var p = o; p.f = nil; o.f; o.m;"⟩

/-- A name in the first line. -/
def named (name : String) : Token := ⟨.identifier, name, 1⟩

/-- An occurrence of a variable. -/
def occurrence (id : Nat) (name : String) : Expr := .variable ⟨id, named name⟩

/-- The method. -/
def method : FunctionDecl := .mk (some (named "m")) ⟨.keyword .funcKw, "func", 1⟩ [] []

/-- The statements that come before the store. -/
def before : List Stmt :=
  [.classDecl (named "A") none [method], .classDecl (named "B") (some ⟨0, named "A"⟩) [],
    .varDecl (named "o") (some (.call (occurrence 1 "B") ⟨.mark .rightParen, ")", 1⟩ [])),
    .varDecl (named "p") (some (occurrence 2 "o"))]

/-- The store. -/
def store : Expr := .set (occurrence 3 "p") (named "f") (.literal .nil)

/-- What is read. -/
def readings : List Stmt :=
  [.expression (.get (occurrence 4 "o") (named "f")), .expression (.get (occurrence 5 "o") (named "m"))]

/-- What the program can reach outside itself: nothing to read, and a sink that takes everything. -/
def host : Host := ⟨[], #[], .whole, fun _ => 0, 0⟩

/-- The machine behind a statement, if it comes to its end. -/
def after (m : Machine) (s : Stmt) : Machine :=
  match execute 9 s m with
  | .done _ m' => m'
  | .failed _ _ | .exhausted => m

/-- The machine before the store. -/
def machine : Machine := before.foldl after (.start host)

/-- The machine behind it. -/
def behind : Machine := after machine (.expression store)

/-- The class that is extended. -/
def first : Class := ⟨⟨0, "A", methodTable [method] .global⟩, []⟩

/-- The class of the instance. -/
def second : Class := ⟨⟨1, "B", methodTable [] (Env.global.extend 1)⟩, [first.own]⟩

/-- The instance. -/
def shared : Value := .object 0 second

theorem accepted : turn.Accepted := ⟨by cbv, by cbv⟩

theorem program_eq : turn.parsed.program = before ++ .expression store :: readings := by cbv

/-- All variables are globals, so no distance is recorded. -/
theorem machine_eq : turn.machine = .start host := by cbv

/-- The evaluator comes to the store. -/
theorem leads_store : turn.opening.Leads ⟨9, .program (.expression store :: readings) none, machine⟩ := by
  unfold Turn.opening
  rw [program_eq, machine_eq]
  refine .head (.behindStatement nofun rfl) (.head (.behindStatement nofun rfl) ?_)
  exact .head (.behindStatement nofun rfl) (.single (.behindStatement nofun rfl))

/-- The field is stored through the second variable. -/
theorem stored : evaluate 8 store machine = .done .nil behind := rfl

/-- And then to what is read. -/
theorem leads_readings : turn.opening.Leads ⟨9, .program readings none, behind⟩ :=
  leads_store.tail (.behindStatement nofun rfl)

/-- The field is read through the other variable. -/
theorem field_read : evaluate 8 (.get (occurrence 4 "o") (named "f")) behind = .done .nil behind := rfl

/-- The method, newly bound to the instance. -/
def bound : Closure := ⟨method, Env.global.extend behind.store.frames.size, false⟩

/-- The method is found on the class further up the chain, though it is read from an instance of the
    nearer. -/
theorem method_read : ∃ m, getProperty shared (named "m") behind =
    .done (.function behind.store.nextIdentity bound) m ∧ behind.store.frames.size < m.store.frames.size :=
  ⟨_, rfl, by decide⟩

end Aliased

open Aliased in
/-- Through one of the two variables the field gets its value, and through the other one it is read; the
    method is that of the class that is extended. -/
theorem object_model_through_alias :
    turn.Accepted ∧
    (∃ done rest, turn.opening.log =
        done ++ .comes ⟨9, .program (.expression store :: readings) none, machine⟩ :: rest ∧
      ObjectModel done machine ∧ machine.store.field? 0 "f" = none ∧
      Sets machine 7 (occurrence 3 "p") (named "f") (.literal .nil) (.done .nil behind)) ∧
    ∃ done rest, turn.opening.log = done ++ .comes ⟨9, .program readings none, behind⟩ :: rest ∧
      ObjectModel done behind ∧ behind.store.slot? 0 "o" = some (some shared) ∧
      behind.store.slot? 0 "p" = some (some shared) ∧ shared.Known done ∧
      Gets done behind 7 (occurrence 4 "o") (named "f") (.done .nil behind) ∧
      lastStored done 0 "f" = some .nil ∧ Finds done second.chain "m" method .global ∧
      ∃ m, Reads done behind 0 second (named "m") (.done (.function behind.store.nextIdentity bound) m) := by
  refine ⟨accepted, ?_, ?_⟩
  · have hcomes := (Moment.mem_logTo_of_leads (Nat.le_refl _) leads_store).1
    obtain ⟨done, rest, hlog⟩ := List.append_of_mem hcomes
    have hmodel : ObjectModel (historyOf (turnsOf []) ++ done) machine := object_model .start accepted hlog
    have hsets := hmodel.sets 7 (occurrence 3 "p") (named "f") (.literal .nil)
    rw [show evaluate (7 + 1) (.set (occurrence 3 "p") (named "f") (.literal .nil)) machine = _ from stored]
      at hsets
    exact ⟨done, rest, hlog, hmodel, rfl, hsets⟩
  · have hcomes := (Moment.mem_logTo_of_leads (Nat.le_refl _) leads_readings).1
    obtain ⟨done, rest, hlog⟩ := List.append_of_mem hcomes
    have hmodel : ObjectModel (historyOf (turnsOf []) ++ done) behind := object_model .start accepted hlog
    have hknown : shared.Known done := hmodel.slots 0 "o" shared rfl
    have hgets := hmodel.gets 7 (occurrence 4 "o") (named "f")
    rw [field_read] at hgets
    -- The instance has the field, as its value is read without a new frame.
    have hfield : Reads done behind 0 second (named "f") (.done .nil behind) :=
      hmodel.reads 0 second (named "f") hknown
    obtain ⟨m, hmethod, hgrown⟩ := method_read
    have hreads := hmodel.reads 0 second (named "m") hknown
    rw [show getProperty (.object 0 second) (named "m") behind = _ from hmethod] at hreads
    obtain ⟨d, around, hfinds, heq⟩ := hreads.found hgrown
    have hbound := (Value.function.inj heq).2
    obtain rfl : method = d := congrArg Closure.declaration hbound
    have haround : some Env.global = some around := congrArg (·.env.enclosing?) hbound
    cases haround
    exact ⟨done, rest, hlog, hmodel, rfl, rfl, hknown, hgets, hfield.stored, hfinds, m, hreads⟩

end Lox
