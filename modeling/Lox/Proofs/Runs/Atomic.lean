import Lox.Proofs.Runs.Current
import Lox.Proofs.Runs.Growth

/-!
  Declarations.

  A declaration first evaluates its operand: the initializer of a variable, the superclass of a class.  Then its
  name is declared in the current frame, if the frame does not have it.  So there are three ways in which a
  declaration can end (`Declared`):

  * the operand fails, and the declaration with it;
  * the frame has the name, which is an error; all variables are as the operand has left them;
  * the name is bound to what the declaration means (`Bound`), and all other variables are as the operand has
    left them (`Store.Adds`).

  Expressions and calls declare nothing in the frames that were there before them (`evaluate_sameNames`), which
  is known from the laws of `Growth`; so the operand leaves the names as they are.  A class declares its name
  first without a value and gives it one at the end; what fails between the two can only be the superclass, and
  that is evaluated before.

  A session takes over the machine that an error has left (`outcome_of_failed`), with the globals current: so a
  global declaration that has failed can be made again.  `declarations_are_atomic` states all of this, and
  `class_declared_after_failure` is a class that is declared behind an attempt that failed.
-/

namespace Lox

open Machine

/-- The name that a statement declares, if it declares one. -/
def Stmt.declared? : Stmt → Option Token
  | .varDecl name _ => some name
  | .funcDecl declaration => some (declaration.name.getD declaration.keyword)
  | .classDecl name _ _ => some name
  | _ => none

namespace Store

/-- One name is new in a frame, bound to the slot; all other variables are the same. -/
structure Adds (frame : Nat) (x : String) (slot : Option Value) (s s' : Store) : Prop where
  fresh : s.slot? frame x = none
  bound : s'.slot? frame x = some slot
  others : ∀ f < s.frames.size, ∀ y, (f = frame → y ≠ x) → s'.slot? f y = s.slot? f y

/-- A slot that is put into a frame which lacks the name adds the name. -/
theorem Adds.put {s : Store} {frame : Nat} {x : String} (hframe : frame < s.frames.size)
    (hfresh : s.slot? frame x = none) (slot : Option Value) : Adds frame x slot s (s.put frame x slot) where
  fresh := hfresh
  bound := by rw [slot?_put s hframe, if_pos ⟨rfl, rfl⟩]
  others f _ y hy := by
    rw [slot?_put s hframe, if_neg]
    rintro ⟨rfl, rfl⟩
    exact hy rfl rfl

/-- The name may be bound anew. -/
theorem Adds.rebind {s s' : Store} {frame : Nat} {x : String} {slot : Option Value} (h : Adds frame x slot s s')
    (hframe : frame < s'.frames.size) (slot' : Option Value) :
    Adds frame x slot' s (s'.put frame x slot') where
  fresh := h.fresh
  bound := by rw [slot?_put s' hframe, if_pos ⟨rfl, rfl⟩]
  others f hf y hy := by
    rw [slot?_put s' hframe, if_neg, h.others f hf y hy]
    rintro ⟨rfl, rfl⟩
    exact hy rfl rfl

/-- Another frame may come behind those that there are. -/
theorem Adds.push {s s' : Store} {frame : Nat} {x : String} {slot : Option Value} (h : Adds frame x slot s s')
    (hframe : frame < s'.frames.size) (hsize : s.frames.size ≤ s'.frames.size) (env : Env)
    (table : Table (Option Value)) : Adds frame x slot s (s'.push env table).2 where
  fresh := h.fresh
  bound := by rw [slot?_push, if_neg (by omega), h.bound]
  others f hf y hy := by rw [slot?_push, if_neg (by omega), h.others f hf y hy]

end Store

namespace Eval

/-- What a declaration evaluates before it declares its name: an initializer, or a superclass. -/
def operand (fuel : Nat) : Stmt → Eval (Option Value)
  | .varDecl _ initializer => optional (evaluate fuel) initializer
  | .classDecl _ superclass _ => superclass.elim (pure none) fun ref => (some ∘ .classOf) <$> superclassOf ref
  | _ => pure none

/-- What a declaration in these frames binds its name to, whose operand has this value. -/
inductive Bound (env : Env) : Stmt → Option Value → Option Value → Prop where
  | «variable» {name : Token} {initializer : Option Expr} {value : Option Value} :
    Bound env (.varDecl name initializer) value value
  | function {declaration : FunctionDecl} {identity : Nat} :
    Bound env (.funcDecl declaration) none (some (.function identity ⟨declaration, env, false⟩))
  | class {name : Token} {superclass : Option Ref} {methods : List FunctionDecl} {own : ClassBody}
    {parent : Option Class} : own.name = name.lexeme →
    Bound env (.classDecl name superclass methods) (parent.map .classOf)
      (some (.classOf ⟨own, parent.elim [] Class.chain⟩))

/-- The ways in which a declaration can end. -/
inductive Declared (fuel : Nat) (s : Stmt) (name : Token) (m : Machine) :
    Ending Machine RuntimeError Completion → Prop where
  | exhausted : operand fuel s m = .exhausted → Declared fuel s name m .exhausted
  | failed {e : RuntimeError} {m' : Machine} : operand fuel s m = .failed e m' →
    Declared fuel s name m (.failed e m')
  | known {value : Option Value} {m₁ m' : Machine} : operand fuel s m = .done value m₁ →
    (m₁.store.slot? m.env.frame name.lexeme).isSome → m'.env = m.env → m'.store.frames = m₁.store.frames →
    Declared fuel s name m (.failed ⟨name, .alreadyDefined⟩ m')
  | bound {value slot : Option Value} {m₁ m' : Machine} : operand fuel s m = .done value m₁ →
    Bound m.env s value slot → m'.env = m.env → m₁.store.Adds m.env.frame name.lexeme slot m'.store →
    Declared fuel s name m (.done .normal m')

section Declarations

variable {fuel : Nat} {m : Machine}

/-- To define a name fails if the frame has it, and puts a slot otherwise. -/
theorem define_run (name : Token) (slot : Option Value) (m : Machine) :
    define name slot m = if (m.store.slot? m.env.frame name.lexeme).isSome then .failed ⟨name, .alreadyDefined⟩ m
      else .done () { m with store := m.store.put m.env.frame name.lexeme slot } :=
  Lexical.atToken_define name m.env.frame name.lexeme slot m

/-- A variable: the operand is the initializer, if there is one. -/
theorem declared_variable (hframe : m.env.frame < m.store.frames.size) (name : Token) (initializer : Option Expr) :
    Declared fuel (.varDecl name initializer) name m (execute (fuel + 1) (.varDecl name initializer) m) := by
  show Declared _ _ _ _ ((optional (evaluate fuel) initializer >>= fun slot =>
    define name slot >>= fun _ => pure .normal) m)
  cases hoperand : optional (evaluate fuel) initializer m with
  | exhausted =>
    rw [Action.bind_of_exhausted hoperand]
    exact .exhausted hoperand
  | failed e m' =>
    rw [Action.bind_of_failed hoperand]
    exact .failed hoperand
  | done value m₁ =>
    have hsteady : m₁.env = m.env ∧ m.store.Steady m.env.frame m₁.store :=
      (steadies_steps m.env.frame fun _ => True).optional (steadies m.env.frame fuel).evaluate initializer
        m m₁ hframe trivial (by rw [hoperand]; rfl)
    -- The operand has left the environment as it was, and the frame with the same names.
    obtain ⟨henv, hsteady⟩ := hsteady
    rw [Action.bind_of_done hoperand]
    have hdefine := define_run name value m₁
    rw [henv] at hdefine
    split at hdefine
    · rename_i hknown
      rw [Action.bind_of_failed hdefine]
      exact .known hoperand hknown henv rfl
    · rename_i hfresh
      rw [Action.bind_of_done hdefine]
      exact .bound hoperand .variable rfl (.put hsteady.present (by simpa using hfresh) value)

/-- A function: there is no operand, and the value is a new function. -/
theorem declared_function (hframe : m.env.frame < m.store.frames.size) (declaration : FunctionDecl) :
    Declared fuel (.funcDecl declaration) (declaration.name.getD declaration.keyword) m
      (execute (fuel + 1) (.funcDecl declaration) m) := by
  generalize hname : declaration.name.getD declaration.keyword = name
  let m₁ : Machine := { m with store := m.store.newIdentity.2 }
  let value : Value := .function m.store.nextIdentity ⟨declaration, m.env, false⟩
  have hrun : execute (fuel + 1) (.funcDecl declaration) m =
      (define name (some value) >>= fun _ => pure .normal) m₁ := by
    rw [← hname]
    rfl
  rw [hrun]
  have hdefine := define_run name (some value) m₁
  split at hdefine
  · rename_i hknown
    rw [Action.bind_of_failed hdefine]
    exact .known rfl hknown rfl rfl
  · rename_i hfresh
    rw [Action.bind_of_done hdefine]
    have hadds := Store.Adds.put (s := m₁.store) hframe (by simpa using hfresh) (some value)
    exact .bound rfl .function rfl ⟨hadds.fresh, hadds.bound, hadds.others⟩

/-- Finding the superclass changes nothing. -/
theorem superclassOf_state {ref : Ref} {m m' : Machine} {c : Class} (h : superclassOf ref m = .done c m') :
    m' = m := by
  obtain ⟨value, t, hvalue, hclass⟩ := Action.bind_eq_done_iff.mp h
  rw [Lexical.lookUp_state hvalue] at hclass
  cases value with
  | classOf =>
    cases hclass
    rfl
  | _ => cases hclass

/-- The superclass of a class, if it is to have one. -/
def parentOf (superclass : Option Ref) : Eval (Option Class) :=
  superclass.elim (pure none) fun ref => some <$> superclassOf ref

/-- To look up a superclass changes nothing. -/
theorem parentOf_state {superclass : Option Ref} {m m' : Machine} {parent : Option Class}
    (h : parentOf superclass m = .done parent m') : m' = m := by
  cases superclass with
  | none =>
    cases h
    rfl
  | some ref =>
    rw [show parentOf (some ref) = some <$> superclassOf ref from rfl, map_eq_pure_bind,
      Action.bind_eq_done_iff] at h
    obtain ⟨c, t, hc, ht⟩ := h
    cases ht
    exact superclassOf_state hc

/-- The operand of a class is its superclass, if there is one. -/
theorem operand_class (name : Token) (superclass : Option Ref) (methods : List FunctionDecl) :
    operand fuel (.classDecl name superclass methods) =
      (parentOf superclass >>= fun parent => pure (parent.map .classOf)) := by
  cases superclass with
  | none => rfl
  | some ref => simp [operand, parentOf, Function.comp_def]

/-- Declares a class whose superclass has been found. -/
def declareBelow (name : Token) (methods : List FunctionDecl) (parent : Option Class) : Eval Unit := do
  define name none
  let env ← .read Machine.env
  let around ← aroundMethods env parent
  let identity ← make Store.newIdentity
  let own : ClassBody := ⟨identity, name.lexeme, methodTable methods around⟩
  atToken name (Store.assign env.frame name.lexeme (.classOf ⟨own, parent.elim [] Class.chain⟩))

/-- What the class needs is made while its name has no value yet; then the name gets the class. -/
theorem declareBelow_run (name : Token) (methods : List FunctionDecl) (parent : Option Class)
    (hframe : m.env.frame < m.store.frames.size)
    (hfresh : m.store.slot? m.env.frame name.lexeme = none) :
    ∃ (own : ClassBody) (m' : Machine), own.name = name.lexeme ∧ m'.env = m.env ∧
      m.store.Adds m.env.frame name.lexeme (some (.classOf ⟨own, parent.elim [] Class.chain⟩)) m'.store ∧
      declareBelow name methods parent m = .done () m' := by
  let m₁ : Machine := { m with store := m.store.put m.env.frame name.lexeme none }
  have hdefine : define name none m = .done () m₁ := by rw [define_run, hfresh]; rfl
  have hadds : m.store.Adds m.env.frame name.lexeme none m₁.store := .put hframe hfresh none
  have hsize : m₁.store.frames.size = m.store.frames.size := by simp [m₁, Store.put]
  -- The frame of `super` comes behind the one in which the name is.
  obtain ⟨around, t, haround, henv, htadds, htsize⟩ : ∃ around t, aroundMethods m.env parent m₁ = .done around t ∧
      t.env = m.env ∧ m.store.Adds m.env.frame name.lexeme none t.store ∧ m.env.frame < t.store.frames.size := by
    cases parent with
    | none => exact ⟨_, _, rfl, rfl, hadds, by omega⟩
    | some c =>
      have hpush := hadds.push (by omega) (by omega) m.env (Table.empty.insert "super" (some (.classOf c)))
      refine ⟨_, _, rfl, rfl, hpush, ?_⟩
      show m.env.frame < (m₁.store.frames.push _).size
      rw [Array.size_push]
      omega
  let t₁ : Machine := { t with store := t.store.newIdentity.2 }
  have hnew : m.store.Adds m.env.frame name.lexeme none t₁.store :=
    ⟨htadds.fresh, htadds.bound, htadds.others⟩
  let own : ClassBody := ⟨t.store.nextIdentity, name.lexeme, methodTable methods around⟩
  let value : Value := .classOf ⟨own, parent.elim [] Class.chain⟩
  let m' : Machine := { t₁ with store := t₁.store.put m.env.frame name.lexeme (some value) }
  have hassign : atToken name (Store.assign m.env.frame name.lexeme value) t₁ = .done () m' := by
    rw [Lexical.atToken_assign, hnew.bound]
    rfl
  refine ⟨own, m', rfl, henv, hnew.rebind htsize (some value), ?_⟩
  exact (Action.bind_of_done hdefine).trans ((Action.bind_of_done haround).trans hassign)

/-- A class: the name is declared behind the superclass, and has the class in the end. -/
theorem declared_class (hframe : m.env.frame < m.store.frames.size) (name : Token) (superclass : Option Ref)
    (methods : List FunctionDecl) : Declared fuel (.classDecl name superclass methods) name m
      (execute (fuel + 1) (.classDecl name superclass methods) m) := by
  have hrun : execute (fuel + 1) (.classDecl name superclass methods) =
    ((parentOf superclass >>= declareBelow name methods) >>= fun _ => pure .normal) := rfl
  have hoperand : operand fuel (.classDecl name superclass methods) =
      (parentOf superclass >>= fun parent => pure (parent.map .classOf)) :=
    operand_class name superclass methods
  rw [hrun]
  cases hparent : parentOf superclass m with
  | exhausted =>
    rw [Action.bind_of_exhausted (Action.bind_of_exhausted hparent)]
    exact .exhausted (hoperand ▸ Action.bind_of_exhausted hparent)
  | failed e m' =>
    -- The superclass is not there, or is none.
    rw [Action.bind_of_failed (Action.bind_of_failed hparent)]
    exact .failed (hoperand ▸ Action.bind_of_failed hparent)
  | done parent t =>
    cases parentOf_state hparent
    have hdone : operand fuel (.classDecl name superclass methods) m = .done (parent.map .classOf) m :=
      hoperand ▸ Action.bind_of_done hparent
    by_cases hknown : (m.store.slot? m.env.frame name.lexeme).isSome
    · have hdefine := define_run name none m
      rw [if_pos hknown] at hdefine
      rw [Action.bind_of_failed ((Action.bind_of_done hparent).trans (Action.bind_of_failed hdefine))]
      exact .known hdone hknown rfl rfl
    · obtain ⟨own, m', hname, henv, hadds, hbelow⟩ :=
        declareBelow_run name methods parent hframe (by simpa using hknown)
      rw [Action.bind_of_done ((Action.bind_of_done hparent).trans hbelow)]
      exact .bound hdone (.class hname) henv hadds

/-- **A declaration ends in one of these ways.** -/
theorem execute_declaration {s : Stmt} {name : Token} (hs : s.declared? = some name) (fuel : Nat) {m : Machine}
    (hframe : m.env.frame < m.store.frames.size) : Declared fuel s name m (execute (fuel + 1) s m) := by
  cases s with
  | varDecl x initializer =>
    cases hs
    exact declared_variable hframe _ _
  | funcDecl declaration =>
    cases hs
    exact declared_function hframe _
  | classDecl x superclass methods =>
    cases hs
    exact declared_class hframe _ _ _
  | _ => cases hs

end Declarations

/-- Evaluating its operand, a declaration leaves the names of all frames as they are. -/
theorem operand_steady {fuel : Nat} {s : Stmt} {m m' : Machine} (h : (operand fuel s m).state? = some m') :
    m.store.SameNames m'.store ∧ m'.env = m.env := by
  have hlaw : ∀ {P : {α : Type} → Eval α → Prop}, Steps P → (∀ e, P (evaluate fuel e)) → P (operand fuel s) := by
    intro P hp hvalue
    cases s with
    | varDecl name initializer => exact hp.optional hvalue initializer
    | classDecl name superclass methods =>
      cases superclass with
      | none => exact hp.pure none
      | some ref => exact hp.map _ (hp.superclassOf ref)
    | _ => exact hp.pure none
  refine ⟨sameNames (hlaw keeps_closed.toSteps (keeps fuel).evaluate) (fun f => hlaw (steadies_steps f _)
    (steadies f fuel).evaluate) h, ?_⟩
  exact (hlaw forward_closed.toSteps (forward fuel).evaluate m m' h).env

/-- A declaration that succeeds binds its name, and leaves all else as its operand has left it. -/
theorem declared_of_done {fuel : Nat} {s : Stmt} {name : Token} {m m' : Machine} {completion : Completion}
    (hs : s.declared? = some name) (hframe : m.env.frame < m.store.frames.size)
    (h : execute (fuel + 1) s m = .done completion m') :
    ∃ value slot m₁, operand fuel s m = .done value m₁ ∧ m.store.SameNames m₁.store ∧
      m.store.slot? m.env.frame name.lexeme = none ∧ Bound m.env s value slot ∧
      m₁.store.Adds m.env.frame name.lexeme slot m'.store ∧ m'.env = m.env := by
  have hdeclared := execute_declaration hs fuel hframe
  rw [h] at hdeclared
  cases hdeclared with
  | @bound value slot m₁ _ hoperand hbound henv hadds =>
    obtain ⟨hsame, -⟩ := operand_steady (by rw [hoperand]; rfl)
    refine ⟨value, slot, m₁, hoperand, hsame, ?_, hbound, hadds, henv⟩
    have hnone := hsame.names m.env.frame hframe name.lexeme
    rw [hadds.fresh] at hnone
    simpa using hnone.symm

/-- A declaration that fails leaves all variables as its operand has left them. -/
theorem declared_of_failed {fuel : Nat} {s : Stmt} {name : Token} {m m' : Machine} {error : RuntimeError}
    (hs : s.declared? = some name) (hframe : m.env.frame < m.store.frames.size)
    (h : execute (fuel + 1) s m = .failed error m') :
    ∃ m₁, (operand fuel s m).state? = some m₁ ∧ m.store.SameNames m₁.store ∧
      m'.store.frames = m₁.store.frames ∧ m'.env = m.env ∧
      (m.store.slot? m.env.frame name.lexeme = none → m'.store.slot? m.env.frame name.lexeme = none) := by
  have hdeclared := execute_declaration hs fuel hframe
  rw [h] at hdeclared
  -- What the operand has left has the name only if it was there before.
  have hfresh : ∀ m₁ : Machine, m.store.SameNames m₁.store → m.store.slot? m.env.frame name.lexeme = none →
      m₁.store.slot? m.env.frame name.lexeme = none := by
    intro m₁ hsame hnone
    have hsome := hsame.names m.env.frame hframe name.lexeme
    rw [hnone] at hsome
    simpa using hsome
  cases hdeclared with
  | failed hoperand =>
    obtain ⟨hsame, henv⟩ := operand_steady (by rw [hoperand]; rfl)
    exact ⟨m', by rw [hoperand]; rfl, hsame, rfl, henv, hfresh m' hsame⟩
  | @known _ m₁ _ hoperand hknown henv hframes =>
    obtain ⟨hsame, -⟩ := operand_steady (by rw [hoperand]; rfl)
    refine ⟨m₁, by rw [hoperand]; rfl, hsame, hframes, henv, fun hnone => ?_⟩
    rw [hfresh m₁ hsame hnone] at hknown
    cases hknown

/-- What the current frame does not have can be declared in it. -/
theorem define_fresh {name : Token} {m : Machine} (h : m.store.slot? m.env.frame name.lexeme = none)
    (slot : Option Value) : ∃ m', define name slot m = .done () m' := by
  rw [define_run, h]
  exact ⟨_, rfl⟩

/-- A program goes on from each of its statements as it was to go on from its first. -/
theorem runAll_of_leads {n k : Nat} {ss ss' : List Stmt} {last last' : Option Value} {m m' : Machine}
    (h : Moment.Leads ⟨n, .program ss last, m⟩ ⟨k, .program ss' last', m'⟩) :
    runAll n ss last m = runAll k ss' last' m' := by
  generalize hμ : (⟨k, .program ss' last', m'⟩ : Moment) = μ at h
  -- By the way of the program to the statement: what lies behind it has been done.
  induction h generalizing k ss' last' m' with
  | refl =>
    cases hμ
    rfl
  | tail _ hcalls ih =>
    subst hμ
    cases hcalls with
    | behindShown he => exact (ih rfl).trans (Action.bind_of_done he)
    | behindStatement hs hdone =>
      refine (ih rfl).trans ?_
      rw [runAll_statement hs, Action.bind_of_done hdone]

/-- When a declaration of a program fails, the submission is over; the session goes on with what the
    declaration has left. -/
theorem outcome_of_failed {t : Turn} (haccepted : t.Accepted) {k : Nat} {s : Stmt} {ss : List Stmt}
    {last : Option Value} {m m' : Machine} (hleads : t.opening.Leads ⟨k, .program (s :: ss) last, m⟩)
    (hs : ∀ e, s ≠ .value e) {e : RuntimeError} (hfailed : execute k s m = .failed e m') :
    ∃ answer, t.outcome? = some answer ∧ answer.diagnostics = [.runtime e] ∧
      answer.session.machine = { m' with env := .global } := by
  have hrun : runAll t.fuel t.parsed.program none t.machine = .failed e m' := by
    rw [runAll_of_leads hleads, runAll_statement hs, Action.bind_of_failed hfailed]
  rw [Turn.outcome_accepted haccepted, hrun]
  exact ⟨_, rfl, rfl, rfl⟩

end Eval

open Eval

/-- What declares a name shows no value. -/
theorem Stmt.not_value_of_declared {s : Stmt} {name : Token} (h : s.declared? = some name) (e : Expr) :
    s ≠ .value e := by
  rintro rfl
  cases h

/-- A frame that has a name is in the store. -/
theorem Store.present_of_slot {s : Store} {f : Nat} {x : String} {slot : Option Value}
    (h : s.slot? f x = some slot) : f < s.frames.size := by
  obtain ⟨frame, hframe, -⟩ := Option.bind_eq_some_iff.mp h
  exact (Array.getElem?_eq_some_iff.mp hframe).1

/-- The frame of the globals is in the store, at every statement of a submission. -/
theorem Turn.global_present {interactive : Bool} {host : Host} {dealings : List Dealing} {t : Turn}
    (h : (Session.start interactive host).History dealings t.session) {k : Nat} {ss : List Stmt}
    {last : Option Value} {m : Machine} (hleads : t.opening.Leads ⟨k, .program ss last, m⟩) :
    m.env = .global ∧ Env.global.frame < m.store.frames.size := by
  refine ⟨(Moment.env_of_leads hleads).trans h.env, ?_⟩
  have hkept : t.machine.Kept m := by
    refine Moment.between_of_leads .refl .trans (fun {n e m v m'} he => ?_) (fun {n s m completion m'} hs => ?_)
      hleads
    · exact (keeps n).evaluate e m m' (by rw [he]; rfl)
    · exact (keeps n).execute s m m' (by rw [hs]; rfl)
  -- Among the globals is `print`, which was there from the start.
  obtain ⟨slot, hslot, -⟩ := (h.kept.trans hkept.store).slots 0 "print" (some (.native .print)) rfl
  exact Store.present_of_slot hslot

/-- **Declarations succeed as a whole or not at all, and the names of frames only grow.**  Expressions
    and calls, however they end, leave the names of the frames as they are that were there before, and
    those that had a value have one.  A declaration that succeeds binds its name, which the current frame
    did not have, and leaves all else as its operand has left it; one that fails leaves all variables so,
    and if the frame did not have the name it can be declared afterwards.  Over the dealings with a
    session no name goes away, and a global whose declaration has ended a submission can be declared in
    the next. -/
theorem declarations_are_atomic (fuel : Nat) :
    (∀ e m m', (evaluate fuel e m).state? = some m' → m.store.SameNames m'.store) ∧
    (∀ function paren given m m', (call fuel function paren given m).state? = some m' →
      m.store.SameNames m'.store) ∧
    (∀ s name m, s.declared? = some name → m.env.frame < m.store.frames.size →
      (∀ completion m', execute (fuel + 1) s m = .done completion m' →
        ∃ value slot m₁, operand fuel s m = .done value m₁ ∧ m.store.SameNames m₁.store ∧
          m.store.slot? m.env.frame name.lexeme = none ∧ Bound m.env s value slot ∧
          m₁.store.Adds m.env.frame name.lexeme slot m'.store ∧ m'.env = m.env) ∧
      ∀ error m', execute (fuel + 1) s m = .failed error m' →
        ∃ m₁, (operand fuel s m).state? = some m₁ ∧ m.store.SameNames m₁.store ∧
          m'.store.frames = m₁.store.frames ∧ m'.env = m.env ∧
          (m.store.slot? m.env.frame name.lexeme = none → m'.store.slot? m.env.frame name.lexeme = none)) ∧
    (∀ s dealings s', Session.History s dealings s' → s.machine.store.Kept s'.machine.store) ∧
    ∀ interactive host dealings (t : Turn), (Session.start interactive host).History dealings t.session →
      t.Accepted → ∀ k s ss last m name error m', t.opening.Leads ⟨k + 1, .program (s :: ss) last, m⟩ →
        s.declared? = some name → execute (k + 1) s m = .failed error m' →
        ∃ answer m₁, t.outcome? = some answer ∧ answer.diagnostics = [.runtime error] ∧
          (operand k s m).state? = some m₁ ∧ answer.session.machine.store.frames = m₁.store.frames ∧
          (m.store.slot? Env.global.frame name.lexeme = none →
            ∀ slot, ∃ m'', define name slot answer.session.machine = .done () m'') := by
  refine ⟨fun _ _ _ h => evaluate_sameNames h, fun _ _ _ _ _ h => call_sameNames h, ?_,
    fun _ _ _ h => h.kept, ?_⟩
  · intro s name m hs hframe
    exact ⟨fun _ _ h => declared_of_done hs hframe h, fun _ _ h => declared_of_failed hs hframe h⟩
  · intro interactive host dealings t h haccepted k s ss last m name error m' hleads hs hfailed
    -- At the top level the current frame is that of the globals.
    obtain ⟨henv, hframe⟩ := Turn.global_present h hleads
    obtain ⟨m₁, hoperand, -, hframes, -, hagain⟩ := declared_of_failed hs (henv ▸ hframe) hfailed
    obtain ⟨answer, hanswer, hends, hmachine⟩ :=
      outcome_of_failed haccepted hleads (Stmt.not_value_of_declared hs) hfailed
    refine ⟨answer, m₁, hanswer, hends, hoperand, by rw [hmachine]; exact hframes, ?_⟩
    intro hfresh slot
    rw [henv] at hagain
    exact define_fresh (by rw [hmachine]; exact hagain hfresh) slot

/-! ## A class that extends no class -/

namespace NoClass

def host : Host := ⟨[], #[], .whole, fun _ => 0, 0⟩

def name : Token := ⟨.identifier, "A", 1⟩

/-- What `A` is to extend is a function. -/
def turn : Turn := ⟨.start false host, 2, "class A < print \x7b\x7d"⟩

def declaration : Stmt := .classDecl name (some ⟨0, ⟨.identifier, "print", 1⟩⟩) []

def error : RuntimeError := ⟨⟨.identifier, "print", 1⟩, .superclassNotClass⟩

/-- The declaration is accepted: its superclass is a global name. -/
theorem accepted : turn.Accepted := ⟨by cbv, by cbv⟩

/-- It is the one statement of the program. -/
theorem program : turn.parsed.program = [declaration] := by cbv

/-- Its superclass is no class, so that it fails. -/
theorem fails : ∃ m', execute 2 declaration turn.machine = .failed error m' := by
  refine ⟨turn.machine, ?_⟩
  cbv

end NoClass

open NoClass in
/-- The class is not declared, and can be declared by the next submission; another is declared at once. -/
theorem class_declared_after_failure :
    (∃ answer, turn.outcome? = some answer ∧ answer.diagnostics = [.runtime error] ∧
      ∀ slot, ∃ m'', define name slot answer.session.machine = .done () m'') ∧
    ∃ m', execute 2 (.classDecl name none []) turn.machine = .done .normal m' ∧
      (m'.store.slot? Env.global.frame "A").isSome := by
  obtain ⟨-, -, hdeclares, -, hsessions⟩ := declarations_are_atomic 1
  obtain ⟨m', hfails⟩ := fails
  have hopening : turn.opening = ⟨2, .program [declaration] none, turn.machine⟩ := by
    rw [Turn.opening, program]
    rfl
  have hfresh : turn.machine.store.slot? Env.global.frame name.lexeme = none := by cbv
  obtain ⟨answer, -, hanswer, hends, -, -, hagain⟩ := hsessions false host [] turn .start accepted 1
    declaration [] none turn.machine name error m' (hopening ▸ .refl) rfl hfails
  refine ⟨⟨answer, hanswer, hends, hagain hfresh⟩, ?_⟩
  have hdone : ∃ m', execute 2 (.classDecl name none []) turn.machine = .done .normal m' := ⟨_, rfl⟩
  obtain ⟨m', hdone⟩ := hdone
  obtain ⟨hsucceeds, -⟩ := hdeclares (.classDecl name none []) name turn.machine rfl (by cbv)
  obtain ⟨_, slot, _, -, -, -, -, hadds, -⟩ := hsucceeds .normal m' hdone
  refine ⟨m', hdone, ?_⟩
  have hbound : m'.store.slot? Env.global.frame "A" = some slot := hadds.bound
  rw [hbound]
  rfl

end Lox
