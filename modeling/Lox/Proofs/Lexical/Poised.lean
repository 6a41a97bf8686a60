import Lox.Proofs.Lexical.Faithful

/-!
  Moments, poised.

  A moment is poised if the machine is in step with some state of the reference, and what is about to
  be done is at a site to which the current frames are linked.  Poised moments lead to poised moments
  only (`Poised.calls`), as what has been done in between has been followed.  So whatever the evaluator
  comes to from a poised moment is poised, and only the names whose initializers are still being
  evaluated may be missing besides (`Poised.leads`).

  `faithful` says how whole runs end.  Here is what is true in their middle.  For each way in which one moment
  calls another there is one case: the part of the text that is run next is a part of the site, the frames are
  those before or one more, and for the parts that have been run already the evaluator has handed over a
  machine, which by `faithful` is in step with some state, in a world that is later.

  Which names may be missing grows along the way: a moment inside the initializer of a variable has this
  variable in addition to those of the moment before (`Awaits`).
-/

namespace Lox.Lexical

open Scope

/-- The name that is looked up or assigned to occurs at a site with the walk. -/
structure Occurs (L : Lore) (E : Nat → String → Prop) (m : Machine) (w : Walk) (ls : List Layer)
    (ref : Ref) : Prop where
  stands : ∃ W t fs ts, InStep L E W m t ∧ Linked W fs ls w.scopes ts ∧ m.env.Has fs
  recorded : Recorded L.resolution w ref

/-- The machine is in step, at a site of what is about to be done. -/
inductive Poised (L : Lore) (E : Nat → String → Prop) : Moment → Prop where
  | evaluate {n e m W t ctx w ls fs ts} : Stands L E W m t ctx w (.expr e) ls fs ts →
    Poised L E ⟨n, .evaluate e, m⟩
  | evaluateAll {n es m W t ctx w ls fs ts} : Stands L E W m t ctx w (.exprs es) ls fs ts →
    Poised L E ⟨n, .evaluateAll es, m⟩
  | call {n v paren given m W t r given'} : InStep L E W m t → Alike L.visited W v r →
    List.Forall₂ (Alike L.visited W) given given' → Poised L E ⟨n, .call v paren given, m⟩
  | callClosure {n c given m W t r given'} : InStep L E W m t → Bound L.visited W c r →
    List.Forall₂ (Alike L.visited W) given given' → Poised L E ⟨n, .callClosure c given, m⟩
  | execute {n s m W t ctx w ls fs ts} : Stands L E W m t ctx w (.stmt s) ls fs ts →
    Exact W fs ts → Poised L E ⟨n, .execute s, m⟩
  | executeAll {n ss m W t ctx w ls fs ts} : Stands L E W m t ctx w (.stmts ss) ls fs ts →
    Exact W fs ts → Poised L E ⟨n, .executeAll ss, m⟩
  | program {n ss last m W t w last'} : Stands L E W m t .topLevel w (.stmts ss) [] [] [] →
    Option.Rel (Alike L.visited W) last last' → Poised L E ⟨n, .program ss last, m⟩
  | lookUp {n ref m w ls} : Occurs L E m w ls ref → Poised L E ⟨n, .lookUp ref, m⟩
  | assign {n ref v m w ls} : Occurs L E m w ls ref → Poised L E ⟨n, .assign ref v, m⟩
  | bind {n c id k m W t r k'} : InStep L E W m t → Unbound L.visited W c r →
    ClassAlike L.visited W k k' → Poised L E ⟨n, .bind c (.object id k), m⟩

section Poised

variable {L : Lore} {E E' : Nat → String → Prop} {W : World} {m : Machine} {t : State}
  {ctx : Context} {w : Walk} {phrase : Phrase} {ls : List Layer} {fs : List Nat} {ts : Scopes}
  {μ μ' : Moment} {n : Nat}

/-! ## More excuses -/

/-- More may be excused where the evaluator stands. -/
theorem Stands.excuse (h : Stands L E W m t ctx w phrase ls fs ts) (hE : ∀ f x, E f x → E' f x) :
    Stands L E' W m t ctx w phrase ls fs ts :=
  ⟨h.inStep.excuse hE, h.visited, h.linked, h.chain⟩

/-- And at an occurrence of a name. -/
theorem Occurs.excuse {ref : Ref} (h : Occurs L E m w ls ref) (hE : ∀ f x, E f x → E' f x) :
    Occurs L E' m w ls ref := by
  obtain ⟨⟨W, t, fs, ts, hi, hl, hc⟩, hr⟩ := h
  exact ⟨⟨W, t, fs, ts, hi.excuse hE, hl, hc⟩, hr⟩

/-- More names may be excused. -/
theorem Poised.excuse (h : Poised L E μ) (hE : ∀ f x, E f x → E' f x) : Poised L E' μ := by
  cases h with
  | evaluate h => exact .evaluate (h.excuse hE)
  | evaluateAll h => exact .evaluateAll (h.excuse hE)
  | call hi ha hg => exact .call (hi.excuse hE) ha hg
  | callClosure hi hb hg => exact .callClosure (hi.excuse hE) hb hg
  | execute h he => exact .execute (h.excuse hE) he
  | executeAll h he => exact .executeAll (h.excuse hE) he
  | program h hlast => exact .program (h.excuse hE) hlast
  | lookUp h => exact .lookUp (h.excuse hE)
  | assign h => exact .assign (h.excuse hE)
  | bind hi hu hk => exact .bind (hi.excuse hE) hu hk

/-! ## One step

  From a moment at which both sides agree to each of those that it calls. -/

/-- An occurrence of a name is where the evaluator stands, with its distance. -/
theorem Stands.occurs {ref : Ref} (h : Stands L E W m t ctx w phrase ls fs ts)
    (hr : Recorded L.resolution w ref) : Occurs L E m w ls ref :=
  ⟨⟨W, t, fs, ts, h.inStep, h.linked, h.chain⟩, hr⟩

/-- What an expression within a poised one comes to. -/
theorem Poised.evaluate_calls (hL : L.Closed) {e : Expr}
    (h : Stands L E W m t ctx w (.expr e) ls fs ts) (hlived : L.lived ⟨n, .evaluate e, m⟩)
    (hc : Calls ⟨n, .evaluate e, m⟩ μ') : Poised L E μ' := by
  have hcalls : ∀ {μ}, Calls ⟨n, .evaluate e, m⟩ μ → L.lived μ := hL.calls hlived
  -- A part that is evaluated first stands where the whole does. For a later one the earlier are known to have
  -- been followed, so there is a state with which the machine is in step again.
  cases hc with
  | grouping => exact .evaluate (h.enter hL .grouping)
  | operand => exact .evaluate (h.enter hL .operand)
  | left => exact .evaluate (h.enter hL .left)
  | right hx =>
    have hs := hL.scopes (hL.part h.visited .left) trivial
    obtain ⟨W₁, t₁, r, hw₁, hi₁, henv₁, -⟩ :=
      ((faithful hL _).evaluate (h.enter hL .left) (hcalls .left)).of_done hx
    exact .evaluate (h.go hL .right hs hw₁ hi₁ henv₁)
  | leftLogical => exact .evaluate (h.enter hL .leftLogical)
  | rightLogical hx _ =>
    have hs := hL.scopes (hL.part h.visited .leftLogical) trivial
    obtain ⟨W₁, t₁, r, hw₁, hi₁, henv₁, -⟩ :=
      ((faithful hL _).evaluate (h.enter hL .leftLogical) (hcalls .leftLogical)).of_done hx
    exact .evaluate (h.go hL .rightLogical hs hw₁ hi₁ henv₁)
  | condition => exact .evaluate (h.enter hL .condition)
  | thenValue hx _ =>
    have hs := hL.scopes (hL.part h.visited .condition) trivial
    obtain ⟨W₁, t₁, r, hw₁, hi₁, henv₁, -⟩ :=
      ((faithful hL _).evaluate (h.enter hL .condition) (hcalls .condition)).of_done hx
    exact .evaluate (h.go hL .thenValue hs hw₁ hi₁ henv₁)
  | elseValue hx _ =>
    have hs := hL.scopes (hL.part h.visited .condition) trivial
    have hs' := (hL.scopes (hL.part h.visited .thenValue) trivial).trans hs
    obtain ⟨W₁, t₁, r, hw₁, hi₁, henv₁, -⟩ :=
      ((faithful hL _).evaluate (h.enter hL .condition) (hcalls .condition)).of_done hx
    exact .evaluate (h.go hL .elseValue hs' hw₁ hi₁ henv₁)
  | «variable» => exact .lookUp (h.occurs (hL.settled h.visited).variable.1)
  | this => exact .lookUp (h.occurs (hL.settled h.visited).this.1)
  | assigned => exact .evaluate (h.enter hL .assigned)
  | assigns hx =>
    obtain ⟨W₁, t₁, r, hw₁, hi₁, henv₁, -⟩ :=
      ((faithful hL _).evaluate (h.enter hL .assigned) (hcalls .assigned)).of_done hx
    exact .assign ⟨⟨W₁, t₁, fs, ts, hi₁, h.linked.later hw₁, henv₁ ▸ h.chain⟩,
      (hL.settled h.visited).assign.1⟩
  | callee => exact .evaluate (h.enter hL .callee)
  | arguments hx =>
    have hs := hL.scopes (hL.part h.visited .callee) trivial
    obtain ⟨W₁, t₁, r, hw₁, hi₁, henv₁, -⟩ :=
      ((faithful hL _).evaluate (h.enter hL .callee) (hcalls .callee)).of_done hx
    exact .evaluateAll (h.go hL .arguments hs hw₁ hi₁ henv₁)
  | call hx hx' =>
    have hs := hL.scopes (hL.part h.visited .callee) trivial
    obtain ⟨W₁, t₁, r, hw₁, hi₁, henv₁, ha⟩ :=
      ((faithful hL _).evaluate (h.enter hL .callee) (hcalls .callee)).of_done hx
    obtain ⟨W₂, t₂, given', hw₂, hi₂, -, hgiven⟩ := ((faithful hL _).evaluateAll
      (h.go hL .arguments hs hw₁ hi₁ henv₁) (hcalls (.arguments hx))).of_done hx'
    exact .call hi₂ (ha.mono (fun _ hp => hp) hw₂) hgiven
  | object => exact .evaluate (h.enter hL .object)
  | method hx _ hm _ =>
    obtain ⟨W₁, t₁, r, -, hi₁, -, ha⟩ :=
      ((faithful hL _).evaluate (h.enter hL .object) (hcalls .object)).of_done hx
    cases ha with
    | object id hk =>
      obtain ⟨found, hu⟩ := hk.unbound hm
      exact .bind hi₁ hu hk
  | target => exact .evaluate (h.enter hL .target)
  | field hx =>
    have hs := hL.scopes (hL.part h.visited .target) trivial
    obtain ⟨W₁, t₁, r, hw₁, hi₁, henv₁, -⟩ :=
      ((faithful hL _).evaluate (h.enter hL .target) (hcalls .target)).of_done hx
    exact .evaluate (h.go hL .field hs hw₁ hi₁ henv₁)
  | superMethod hr hclass hthis hm =>
    obtain ⟨d, c, c', id, k, k', hr', hclass', hthis', -, hcc, -, hkk⟩ :=
      super_found hL h.inStep h.visited h.linked h.chain
    -- What the machine has found are the class and the instance that are there.
    cases hr'.symm.trans hr
    cases hclass'.symm.trans hclass
    cases hthis'.symm.trans hthis
    obtain ⟨found, hu⟩ := hcc.unbound hm
    exact .bind h.inStep hu hkk

/-- What a list of expressions within a poised moment comes to. -/
theorem Poised.evaluateAll_calls (hL : L.Closed) {es : List Expr}
    (h : Stands L E W m t ctx w (.exprs es) ls fs ts) (hlived : L.lived ⟨n, .evaluateAll es, m⟩)
    (hc : Calls ⟨n, .evaluateAll es, m⟩ μ') : Poised L E μ' := by
  have hcalls : ∀ {μ}, Calls ⟨n, .evaluateAll es, m⟩ μ → L.lived μ := hL.calls hlived
  cases hc with
  | firstExpr => exact .evaluate (h.enter hL .firstExpr)
  | otherExprs hx =>
    have hs := hL.scopes (hL.part h.visited .firstExpr) trivial
    obtain ⟨W₁, t₁, r, hw₁, hi₁, henv₁, -⟩ :=
      ((faithful hL _).evaluate (h.enter hL .firstExpr) (hcalls .firstExpr)).of_done hx
    exact .evaluateAll (h.go hL .otherExprs hs hw₁ hi₁ henv₁)

/-- What a call comes to. -/
theorem Poised.call_calls (hL : L.Closed) {v : Value} {r : Value Scopes} {paren : Token}
    {given : List Value} {given' : List (Value Scopes)} (hi : InStep L E W m t)
    (ha : Alike L.visited W v r) (hgiven : List.Forall₂ (Alike L.visited W) given given')
    (hlived : L.lived ⟨n, .call v paren given, m⟩) (hc : Calls ⟨n, .call v paren given, m⟩ μ') :
    Poised L E μ' := by
  have hcalls : ∀ {μ}, Calls ⟨n, .call v paren given, m⟩ μ → L.lived μ := hL.calls hlived
  -- A call leads to a closure, or through the instance of a class to its initializer.
  cases hc with
  | closure =>
    cases ha with
    | function id hb => exact .callClosure hi hb hgiven
  | created hx hm =>
    cases ha with
    | classOf hk =>
      obtain ⟨W₁, t₁, _, hw₁, hi₁, -, -⟩ := (newObject_follows hi).of_done hx
      have hk₁ := ClassAlike.mono hk (fun _ hp => hp) hw₁
      obtain ⟨found, hu⟩ := hk₁.unbound hm
      exact .bind hi₁ hu hk₁
  | initializes hx hm hx' =>
    cases ha with
    | classOf hk =>
      obtain ⟨W₁, t₁, _, hw₁, hi₁, -, -⟩ := (newObject_follows hi).of_done hx
      have hk₁ := ClassAlike.mono hk (fun _ hp => hp) hw₁
      obtain ⟨found, hu⟩ := hk₁.unbound hm
      obtain ⟨W₂, t₂, ready', hw₂, hi₂, -, hb⟩ :=
        (bindThis_follows hL hi₁ hu hk₁ (hcalls (.created hx hm))).of_done hx'
      exact .callClosure hi₂ hb
        (hgiven.imp fun _ _ hg => hg.mono (fun _ hp => hp) (hw₁.trans hw₂))

/-- What a call of a closure comes to. -/
theorem Poised.callClosure_calls (hL : L.Closed) {c : Closure} {r : Closure Scopes}
    {given : List Value} {given' : List (Value Scopes)} (hi : InStep L E W m t)
    (hb : Bound L.visited W c r) (hgiven : List.Forall₂ (Alike L.visited W) given given')
    (hlived : L.lived ⟨n, .callClosure c given, m⟩) (hc : Calls ⟨n, .callClosure c given, m⟩ μ') :
    Poised L E μ' := by
  -- The body stands in the frame of the call, inside the frames of the function.
  obtain ⟨-, hvisited, hchain, hlinked, -⟩ := hb
  cases hc with
  | body hpush hparams =>
    cases hpush
    obtain ⟨-, hentering⟩ := entering_follows hL hi hvisited hlinked hgiven hlived
    obtain ⟨W₂, t₂, ts₂, -, hi₂, -, hlinked₂, hexact₂⟩ := hentering.of_done hparams
    exact .executeAll ⟨hi₂.within _, hL.part hvisited .body, hlinked₂, hchain.extend _⟩ hexact₂

/-- The second moment is that of evaluating the initializer with which the first declares the name in
    the frame. -/
inductive Begins : Moment → Moment → Nat → String → Prop where
  | initializer {n name e m} : Begins ⟨n + 1, .execute (.varDecl name (some e)), m⟩
    ⟨n, .evaluate e, m⟩ m.env.frame name.lexeme

/-- What a statement within a poised moment comes to.  While an initializer is evaluated, the name of
    its variable may be missing. -/
theorem Poised.execute_calls (hL : L.Closed) {s : Stmt}
    (h : Stands L E W m t ctx w (.stmt s) ls fs ts) (he : Exact W fs ts)
    (hlived : L.lived ⟨n, .execute s, m⟩) (hc : Calls ⟨n, .execute s, m⟩ μ') :
    Poised L (fun f x => E f x ∨ Begins ⟨n, .execute s, m⟩ μ' f x) μ' := by
  have hcalls : ∀ {μ}, Calls ⟨n, .execute s, m⟩ μ → L.lived μ := hL.calls hlived
  have hmore : ∀ f x, E f x → E f x ∨ Begins ⟨n, .execute s, m⟩ μ' f x := fun _ _ => .inl
  -- The name that is pending is that of the variable whose initializer is being evaluated.
  have hinit : ∀ {name e k}, s = .varDecl name (some e) → n = k + 1 → μ' = ⟨k, .evaluate e, m⟩ →
      ∀ f x, Pending E fs name.lexeme f x → E f x ∨ Begins ⟨n, .execute s, m⟩ μ' f x := by
    rintro name e k rfl rfl rfl f x (hexcused | ⟨hcurrent, rfl⟩)
    · exact .inl hexcused
    · cases hcurrent.frame h.chain
      exact .inr .initializer
  cases hc with
  | expression => exact (Poised.evaluate (h.enter hL .expression)).excuse hmore
  | value => exact (Poised.evaluate (h.enter hL .value)).excuse hmore
  | initializer =>
    have hsettled := hL.settled h.visited
    obtain ⟨hplain, hnew, hclaims⟩ := hsettled.varDecl
    obtain ⟨is, hsits⟩ := hsettled
    obtain ⟨W₁, ts₁, t₁, -, -, hi₁, hl₁, -, -⟩ :=
      announce_follows h.inStep h.linked he hnew (.declare hnew)
        (admits_of_claims hclaims hsits.behind ⟨hplain.not_this, hplain.not_super⟩)
    have hvalue : Stands L _ W₁ m t₁ ctx (w.declare _) (.expr _) ls fs ts₁ :=
      ⟨hi₁, hL.part h.visited .initializer, hl₁, h.chain⟩
    exact (Poised.evaluate hvalue).excuse (hinit rfl rfl rfl)
  | block hpush =>
    cases hpush
    obtain ⟨-, hbody, hexact⟩ := h.enterBlock hL hlived
    exact (Poised.executeAll hbody hexact).excuse hmore
  | decision => exact (Poised.evaluate (h.enter hL .decision)).excuse hmore
  | thenBranch hx _ =>
    have hs := hL.scopes (hL.part h.visited .decision) trivial
    obtain ⟨W₁, t₁, r, hw₁, hi₁, henv₁, -⟩ :=
      ((faithful hL _).evaluate (h.enter hL .decision) (hcalls .decision)).of_done hx
    exact (Poised.execute (h.go hL .thenBranch hs hw₁ hi₁ henv₁)
      (he.later h.linked hw₁ fun _ _ => id)).excuse hmore
  | elseBranch hx _ =>
    have hs := hL.scopes (hL.part h.visited .decision) trivial
    have hs' := (hL.scopes (hL.part h.visited .thenBranch) (hL.settled h.visited).ifElse.1).trans hs
    obtain ⟨W₁, t₁, r, hw₁, hi₁, henv₁, -⟩ :=
      ((faithful hL _).evaluate (h.enter hL .decision) (hcalls .decision)).of_done hx
    exact (Poised.execute (h.go hL .elseBranch hs' hw₁ hi₁ henv₁)
      (he.later h.linked hw₁ fun _ _ => id)).excuse hmore
  | test => exact (Poised.evaluate (h.enter hL .test)).excuse hmore
  | round hx _ =>
    have hs := hL.scopes (hL.part h.visited .test) trivial
    obtain ⟨W₁, t₁, r, hw₁, hi₁, henv₁, -⟩ :=
      ((faithful hL _).evaluate (h.enter hL .test) (hcalls .test)).of_done hx
    exact (Poised.execute (h.go hL .round hs hw₁ hi₁ henv₁)
      (he.later h.linked hw₁ fun _ _ => id)).excuse hmore
  | again hx htruthy hx' =>
    have hs := hL.scopes (hL.part h.visited .test) trivial
    obtain ⟨W₁, t₁, r, hw₁, hi₁, henv₁, -⟩ :=
      ((faithful hL _).evaluate (h.enter hL .test) (hcalls .test)).of_done hx
    have he₁ := he.later h.linked hw₁ fun _ _ => id
    have hround := ((faithful hL _).execute (h.go hL .round hs hw₁ hi₁ henv₁) he₁
      (hcalls (.round hx htruthy))).rests (hL.settled h.visited).whileLoop
    obtain ⟨W₂, t₂, _, hw₂, hi₂, henv₂, -⟩ := hround.of_done hx'
    have hl₁ := h.linked.later hw₁
    have hagain : Stands L E W₂ _ t₂ ctx w (.stmt (.whileLoop _ _)) ls fs ts :=
      ⟨hi₂, h.visited, hl₁.later hw₂, henv₂ ▸ henv₁ ▸ h.chain⟩
    exact (Poised.execute hagain (he₁.later hl₁ hw₂ fun _ _ => id)).excuse hmore
  | superclass =>
    exact (Poised.lookUp (h.occurs (hL.settled h.visited).superclass.1)).excuse hmore
  | returned =>
    exact (Poised.evaluate (h.go hL .returned (Walk.checkReturn_scopes _ _ _ _)
      (Later.refl W : Later Fixed W W) h.inStep rfl)).excuse hmore

/-- What a list of statements within a poised moment comes to. -/
theorem Poised.executeAll_calls (hL : L.Closed) {ss : List Stmt}
    (h : Stands L E W m t ctx w (.stmts ss) ls fs ts) (he : Exact W fs ts)
    (hlived : L.lived ⟨n, .executeAll ss, m⟩) (hc : Calls ⟨n, .executeAll ss, m⟩ μ') :
    Poised L E μ' := by
  have hcalls : ∀ {μ}, Calls ⟨n, .executeAll ss, m⟩ μ → L.lived μ := hL.calls hlived
  cases hc with
  | firstStmt => exact .execute (h.enter hL .firstStmt) he
  | otherStmts hx =>
    obtain ⟨W₁, t₁, r, -, hi₁, henv₁, hb⟩ :=
      ((faithful hL _).execute (h.enter hL .firstStmt) he (hcalls .firstStmt)).of_done hx
    obtain ⟨hl₁, he₁⟩ := hb.normal rfl
    exact .executeAll ⟨hi₁, hL.part h.visited .otherStmts, hl₁, henv₁ ▸ h.chain⟩ he₁

/-- What a program at a poised moment comes to. -/
theorem Poised.program_calls (hL : L.Closed) {ss : List Stmt} {last : Option Value}
    {last' : Option (Value Scopes)} (h : Stands L E W m t .topLevel w (.stmts ss) [] [] [])
    (hlast : Option.Rel (Alike L.visited W) last last')
    (hlived : L.lived ⟨n, .program ss last, m⟩) (hc : Calls ⟨n, .program ss last, m⟩ μ') :
    Poised L E μ' := by
  have hcalls : ∀ {μ}, Calls ⟨n, .program ss last, m⟩ μ → L.lived μ := hL.calls hlived
  cases hc with
  | shown => exact .evaluate ((h.enter hL .firstStmt).enter hL .value)
  | behindShown hx =>
    obtain ⟨W₁, t₁, r, hw₁, hi₁, henv₁, ha⟩ := ((faithful hL _).evaluate
      ((h.enter hL .firstStmt).enter hL .value) (hcalls .shown)).of_done hx
    exact .program (h.otherStmts hL hi₁ henv₁) (.some ha)
  | statement _ => exact .execute (h.enter hL .firstStmt) trivial
  | behindStatement hs hx =>
    have hexecute := (faithful hL _).execute (h.enter hL .firstStmt) trivial (hcalls (.statement hs))
    obtain ⟨W₁, t₁, r, hw₁, hi₁, henv₁, -⟩ := hexecute.of_done hx
    have hlast₁ := related_imp hlast fun _ _ ha => ha.mono (fun _ hp => hp) hw₁
    exact .program (h.otherStmts hL hi₁ henv₁) hlast₁

/-- **What a poised moment comes to directly is poised.** -/
theorem Poised.calls (hL : L.Closed) (h : Poised L E μ) (hlived : L.lived μ) (hc : Calls μ μ') :
    Poised L (fun f x => E f x ∨ Begins μ μ' f x) μ' := by
  have hmore : ∀ f x, E f x → E f x ∨ Begins μ μ' f x := fun _ _ => .inl
  cases h with
  | evaluate h => exact (evaluate_calls hL h hlived hc).excuse hmore
  | evaluateAll h => exact (evaluateAll_calls hL h hlived hc).excuse hmore
  | call hi ha hg => exact (call_calls hL hi ha hg hlived hc).excuse hmore
  | callClosure hi hb hg => exact (callClosure_calls hL hi hb hg hlived hc).excuse hmore
  | execute h he => exact execute_calls hL h he hlived hc
  | executeAll h he => exact (executeAll_calls hL h he hlived hc).excuse hmore
  | program h hlast => exact (program_calls hL h hlast hlived hc).excuse hmore
  | lookUp _ | assign _ | bind _ _ _ => cases hc

/-! ## Any number of steps -/

/-- The name is excused, or it is that of a variable whose initializer is still being evaluated. -/
def Awaited (E : Nat → String → Prop) (start μ : Moment) (f : Nat) (x : String) : Prop :=
  E f x ∨ start.Awaits μ f x

/-- What is awaited at a moment is awaited at those within it. -/
theorem awaits_calls {start : Moment} {f : Nat} {x : String} (h : start.Awaits μ f x)
    (hc : Calls μ μ') : start.Awaits μ' f x := by
  obtain ⟨n, token, e, m, hstart, hleads, hf, hx⟩ := h
  exact ⟨n, token, e, m, hstart, hleads.tail hc, hf, hx⟩

/-- **Whatever a poised moment leads to is poised.** -/
theorem Poised.leads {start : Moment} (hL : L.Closed) (h : Poised L E start) (hlived : L.lived start)
    (hleads : start.Leads μ) : Poised L (Awaited E start μ) μ ∧ L.lived μ := by
  induction hleads with
  | refl => exact ⟨h.excuse fun _ _ => .inl, hlived⟩
  | @tail μ μ' hbefore hc ih =>
    obtain ⟨hpoised, hlived⟩ := ih
    refine ⟨(hpoised.calls hL hlived hc).excuse fun f x hx => ?_, hL.calls hlived hc⟩
    rcases hx with (hexcused | hawaits) | hbegins
    · exact .inl hexcused
    · exact .inr (awaits_calls hawaits hc)
    · cases hbegins with
      | initializer => exact .inr ⟨_, _, _, _, hbefore, .refl, rfl, rfl⟩

end Poised

end Lox.Lexical
