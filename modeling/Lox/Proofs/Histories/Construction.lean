import Lox.Proofs.Histories.Dispatch
import Lox.Proofs.Histories.Objects
import Lox.Proofs.Runs.Forward

/-!
  Construction.

  Calling a class makes an instance.  If a class of its chain has an initializer, the nearest one is
  bound to the instance and called, and what it returns does not matter; else the arguments do not
  matter (`Constructs`).  An initializer, wherever it is called from, gives back the instance to which it
  was bound: that is `this` in the frame that it was bound in, and nothing ever writes to that name,
  also not the body that has just run (`this_behind_call`).

  Two things come together in this.

  * The call itself is computed: how a class is called, how the frame of a call gets its parameters and
    nothing else (`defineParams_done`), and how a call that comes to its end has gone (`callClosure_done`).
  * What `this` is in a frame is a matter of the history: the frame was opened when the method was bound
    (`boundTo_of_called`), and up to the end of the body no event has written to the name.

  The example at the end has an initializer that returns from inside a loop, is called with more arguments than
  it has parameters, and still gives back its instance.
-/

namespace Lox

open Machine Eval

/-! ## Parameters

  Parameters are declared from left to right, and those for which nothing is given are not declared. -/

/-- The frame has the parameters, each with the argument in its place, and nothing else: arguments
    without a parameter are dropped, and parameters without an argument are missing. -/
structure Supplied (s : Store) (frame : Nat) (params : List Token) (given : List Value) : Prop where
  placed : ∀ pair ∈ params.zip given, s.slot? frame pair.1.lexeme = some (some pair.2)
  alone : ∀ x slot, s.slot? frame x = some slot → ∃ pair ∈ params.zip given, pair.1.lexeme = x

/-- What the parameters do to the frame in which they are declared. -/
theorem defineParams_done {frame : Nat} {params : List Token} {given : List Value} {m m' : Machine}
    (hframe : frame < m.store.frames.size) (h : defineParams frame params given m = .done () m') :
    m'.store.frames.size = m.store.frames.size ∧
    (∀ pair ∈ params.zip given, m.store.slot? frame pair.1.lexeme = none ∧
      m'.store.slot? frame pair.1.lexeme = some (some pair.2)) ∧
    ∀ x, (∀ pair ∈ params.zip given, pair.1.lexeme ≠ x) → m'.store.slot? frame x = m.store.slot? frame x := by
  -- The induction is on the parameters; each is declared in the same frame, where the others are not yet.
  induction params generalizing given m with
  | nil =>
    cases given <;> cases h <;> exact ⟨rfl, nofun, fun _ _ => rfl⟩
  | cons param params ih =>
    cases given with
    | nil =>
      cases h
      exact ⟨rfl, nofun, fun _ _ => rfl⟩
    | cons value values =>
      obtain ⟨_, m₁, hdefine, hrest⟩ := Action.bind_eq_done_iff.mp h
      rw [Lexical.atToken_define] at hdefine
      split at hdefine
      · cases hdefine
      · rename_i hfresh
        cases hdefine
        have hnone : m.store.slot? frame param.lexeme = none := by simpa using hfresh
        obtain ⟨hsize, hplaced, hothers⟩ := ih (by simpa [Store.put] using hframe) hrest
        -- The name is declared by now, so that no later parameter has it.
        have hput := Store.slot?_put m.store hframe param.lexeme (some value)
        have hlater : ∀ pair ∈ params.zip values, param.lexeme ≠ pair.1.lexeme := by
          intro pair hpair heq
          obtain ⟨habsent, -⟩ := hplaced pair hpair
          have hthere := hput frame pair.1.lexeme
          rw [if_pos ⟨rfl, heq⟩] at hthere
          rw [hthere] at habsent
          cases habsent
        refine ⟨by simpa [Store.put] using hsize, ?_, ?_⟩
        · rw [List.zip_cons_cons, List.forall_mem_cons]
          refine ⟨⟨hnone, ?_⟩, fun pair hpair => ?_⟩
          · rw [hothers _ fun pair hpair => (hlater pair hpair).symm, hput, if_pos ⟨rfl, rfl⟩]
          · obtain ⟨habsent, hbound⟩ := hplaced pair hpair
            rw [hput, if_neg fun h => hlater pair hpair h.2] at habsent
            exact ⟨habsent, hbound⟩
        · intro x hx
          rw [List.zip_cons_cons, List.forall_mem_cons] at hx
          rw [hothers x hx.2, hput, if_neg fun h => hx.1 h.2]

/-- How a call of a closure that comes to its end has gone: its body ran in a new frame, inside what the
    closure sees, which had the parameters. -/
theorem callClosure_done {n : Nat} {c : Closure} {given : List Value} {m m' : Machine} {v : Value}
    (h : callClosure n c given m = .done v m') :
    ∃ k m₁ completion m₂, n = k + 1 ∧ Calls ⟨n, .callClosure c given, m⟩ ⟨k, .executeAll c.declaration.body, m₁⟩ ∧
      m₁.env = c.env.extend m.store.frames.size ∧
      Supplied m₁.store m.store.frames.size c.declaration.params given ∧
      executeAll k c.declaration.body m₁ = .done completion m₂ ∧
      answer c completion { m₂ with env := m.env } = .done v m' := by
  cases n with
  | zero => cases h
  | succ k =>
    let m₀ : Machine := { m with store := (m.store.push c.env .empty).2 }
    have hpush : make (Store.push c.env .empty) m = .done (c.env.extend m.store.frames.size) m₀ := rfl
    -- The call is taken apart into its three parts: the frame, the parameters, the body.
    obtain ⟨_, t, hparams, hrest⟩ := Action.bind_eq_done_iff.mp
      ((Action.bind_of_done hpush).symm.trans h)
    obtain ⟨completion, u, hbody, hanswer⟩ := Action.bind_eq_done_iff.mp hrest
    have hframe : m.store.frames.size < m₀.store.frames.size := by
      show _ < (m.store.frames.push _).size
      rw [Array.size_push]
      omega
    have hfresh : ∀ x, m₀.store.slot? m.store.frames.size x = none := by
      intro x
      show (m.store.push c.env .empty).2.slot? _ x = none
      rw [Store.slot?_push, if_pos rfl]
      rfl
    obtain ⟨-, hplaced, hothers⟩ := defineParams_done hframe hparams
    have henv : t.env = m.env := (forward_closed.defineParams _ _ _ m₀ t (by rw [hparams]; rfl)).env
    have hsupplied : Supplied t.store m.store.frames.size c.declaration.params given := by
      constructor
      · exact fun pair hpair => (hplaced pair hpair).2
      · intro x slot hslot
        by_contra hnone
        rw [hothers x fun pair hpair hx => hnone ⟨pair, hpair, hx⟩, hfresh] at hslot
        cases hslot
    -- The body runs with the new frame current, and behind it the old ones are so again.
    obtain ⟨w, hw, rfl⟩ : ∃ w, executeAll k c.declaration.body
        { t with env := c.env.extend m.store.frames.size } = .done completion w ∧ u = { w with env := t.env } := by
      unfold within Action.keeping at hbody
      rw [Action.bind_of_done (show Action.update _ t = .done () { t with env := _ } from rfl)] at hbody
      split at hbody <;> cases hbody
      rename_i w hrun
      exact ⟨w, hrun, rfl⟩
    exact ⟨k, _, completion, w, rfl, .body hpush hparams, rfl, hsupplied, hw, henv ▸ hanswer⟩

/-! ## Initializers

  A method that is bound to an instance has a frame around it in which `this` is that instance, and no event ever
  writes there. -/

/-- What the closure sees innermost is the frame that was made when a method was bound to the value. -/
inductive Closure.BoundTo (h : List Event) (c : Closure) (v : Value) : Prop where
  | bound {n : Nat} {method : Closure} {m : Machine} :
    .does ⟨n, .bind method v, m⟩ m (.opens method.env (Table.empty.insert "this" (some v))) ∈ h →
    c.env = method.env.extend m.store.frames.size → BoundTo h c v

section Turns

variable {interactive : Bool} {host : Host} {dealings : List Dealing} {t : Turn} {done rest : List Event}
  {n : Nat} {c : Closure} {given : List Value} {m m' : Machine} {v : Value}

/-- What makes an instance ready was bound to it. -/
theorem boundTo_of_called (h : (Session.start interactive host).History dealings t.session) (ha : t.Accepted)
    (hlog : t.opening.log = done ++ .comes ⟨n, .callClosure c given, m⟩ :: rest)
    (hinit : c.isInitializer = true) :
    ∃ id k, c.BoundTo (historyOf (turnsOf dealings) ++ done) (.object id k) := by
  have hleads : t.opening.Leads ⟨n, .callClosure c given, m⟩ :=
    Moment.leads_of_comes (hlog ▸ List.mem_append_right done List.mem_cons_self)
  have hall : Chronicle (historyOf (t :: turnsOf dealings)) := ((reached_of_history h).turn ha).1
  have hsplit : historyOf (t :: turnsOf dealings) = (historyOf (turnsOf dealings) ++ done) ++ .comes ⟨n, .callClosure c given, m⟩ :: rest :=
    historyOf_split ha hlog
  have hsub : historyOf (turnsOf dealings) ++ done ⊆ historyOf (t :: turnsOf dealings) := by
    rw [hsplit]
    exact List.subset_append_left _ _
  obtain ⟨-, hground⟩ := reached_in_turn h ha hlog
  have hknown : c.env.Known (historyOf (turnsOf dealings) ++ done) ∧ _ := hground.matter
  obtain ⟨-, hpoised, -⟩ := Lexical.poised_of_history h ha hleads
  cases hpoised with
  | callClosure hi hbound _ =>
    obtain ⟨_, _, hchain, hlinked, hthis⟩ := hbound
    obtain ⟨ℓ, ls, rfl, hkind⟩ := hthis hinit
    obtain ⟨f, fs, rfl, hlayer⟩ := hlinked.innermost
    -- The frame was made for an instance: so it was when a method was bound.
    obtain ⟨n₀, method, w, m₀, -, -, -, -, hlived, -, hsize⟩ := (hi.agree.made f ℓ hlayer).bound hkind
    obtain ⟨hcomes, hdoes⟩ := mem_history_of_lives hlived
    have hopens := hdoes m₀ (.opens method.env (Table.empty.insert "this" (some w)))
      (by rw [Moment.inside_bind]; exact List.mem_singleton_self _)
    have hframe : c.env.frame = f := (List.cons.inj hchain).1
    have hancestor : c.env.ancestor? 0 = some m₀.store.frames.size := by
      rw [hsize, ← hframe]
      rfl
    have hne : m₀.store.frames.size ≠ Env.global.frame := by
      have hpos := ((hi.agree.framed f).mp ⟨ℓ, hlayer⟩).1
      show _ ≠ 0
      omega
    obtain ⟨hbefore, -⟩ := hknown.1.opens hall hsub hopens hancestor hne
    obtain ⟨before, after, hcome⟩ := List.append_of_mem hcomes
    obtain ⟨-, id, k, rfl, -⟩ : method.IsMethod before ∧ ∃ id k, w = .object id k ∧ _ :=
      (hall.grounded hcome).2.matter
    refine ⟨id, k, .bound hbefore ?_⟩
    exact (hknown.1.mono hsub).eq_extend hall hopens (hframe.trans hsize.symm) hne

/-- Behind a call `this` is still what it was in the frames that were there before it. -/
theorem this_behind_call (h : (Session.start interactive host).History dealings t.session) (ha : t.Accepted)
    (hlog : t.opening.log = done ++ .comes ⟨n, .callClosure c given, m⟩ :: rest) {μ : Moment} {m₀ : Machine}
    {env : Env} {w : Value}
    (hopens : .does μ m₀ (.opens env (Table.empty.insert "this" (some w))) ∈ historyOf (turnsOf dealings) ++ done)
    (hdone : callClosure n c given m = .done v m') :
    m'.store.slot? m₀.store.frames.size "this" = some (some w) := by
  have hleads : t.opening.Leads ⟨n, .callClosure c given, m⟩ :=
    Moment.leads_of_comes (hlog ▸ List.mem_append_right done List.mem_cons_self)
  obtain ⟨hreached, hground⟩ := reached_in_turn h ha hlog
  have hr : Reached (historyOf (turnsOf dealings) ++ done) m := hreached
  obtain ⟨hknown, hgiven⟩ : c.env.Known (historyOf (turnsOf dealings) ++ done) ∧ _ := hground.matter
  -- The call continues the chronicle, so the store behind it is read off the events in it as well.
  have htells := (tells (n + 1)).callClosure (Nat.lt_succ_self n) hr hknown hgiven
  have hopened : opened (n + 1) [.comes ⟨n, .callClosure c given, m⟩] =
    Moment.log ⟨n, .callClosure c given, m⟩ := List.append_nil _
  unfold Tells at htells
  rw [hopened, hdone] at htells
  obtain ⟨-, hr', -⟩ := htells
  rw [hr'.store, hr'.chronicle.slot?_kept (List.mem_append_left _ hopens), Table.get?_insert, if_pos rfl]
  -- Neither before the call nor in it is the name written.
  intro μ' m₁ f slot hwrites
  rcases List.mem_append.mp hwrites with hbefore | hwithin
  · have hmem : Event.does μ' m₁ (.writes f "this" slot) ∈ historyOf (t :: turnsOf dealings) := by
      rw [historyOf_split ha hlog]
      exact List.mem_append_left _ hbefore
    exact (never_written h hmem).1 rfl
  · obtain ⟨ν, hν, heq | hin⟩ := Moment.leads_of_mem_log hwithin
    · cases heq
    · exact (plain_of_names h ha (hleads.trans hν) (Moment.names_of_inside hin)).1 rfl

/-- A closure is bound to one value only. -/
theorem Closure.BoundTo.unique {h : List Event} (hc : Chronicle h) {v w : Value} (hv : c.BoundTo h v)
    (hw : c.BoundTo h w) : v = w := by
  obtain ⟨hopens, henv⟩ := hv
  obtain ⟨hopens', henv'⟩ := hw
  have hsize := congrArg Env.frame (henv.symm.trans henv')
  -- Both have been bound in the same frame, which was opened once.
  obtain ⟨hμ, -⟩ := hc.opens_once hopens hopens' hsize
  cases hμ
  rfl

/-- **What makes an instance ready gives back that instance.** -/
theorem initializer_returns (h : (Session.start interactive host).History dealings t.session) (ha : t.Accepted)
    (hlog : t.opening.log = done ++ .comes ⟨n, .callClosure c given, m⟩ :: rest)
    (hinit : c.isInitializer = true) (hdone : callClosure n c given m = .done v m') :
    (∃ id k, v = .object id k) ∧ ∀ w, c.BoundTo (historyOf (turnsOf dealings) ++ done) w ↔ w = v := by
  obtain ⟨id, k, hbound⟩ := boundTo_of_called h ha hlog hinit
  obtain ⟨hr, -⟩ := reached_in_turn h ha hlog
  have hunique : ∀ w, c.BoundTo (historyOf (turnsOf dealings) ++ done) w ↔ w = .object id k := by
    intro w
    constructor
    · exact fun hw => hw.unique hr.chronicle hbound
    · rintro rfl
      exact hbound
  obtain ⟨hopens, henv⟩ := hbound
  rename_i n₀ method m₀
  obtain ⟨j, m₁, completion, m₂, -, -, -, -, -, hanswer⟩ := callClosure_done hdone
  have hthis := this_behind_call h ha hlog hopens hdone
  have hframe : c.env.frame = m₀.store.frames.size := by rw [henv]; rfl
  -- However the body was completed, `this` is read in the frame in which the method was bound.
  unfold answer at hanswer
  rw [if_pos hinit, Lexical.atToken_get, hframe] at hanswer
  split at hanswer
  · rename_i value hvalue
    cases hanswer
    cases hthis.symm.trans hvalue
    exact ⟨⟨id, k, rfl⟩, hunique⟩
  · cases hanswer
  · cases hanswer

end Turns

/-! ## Calling a class

  An instance is made, the initializer is bound to it and called once, and the instance is the answer. -/

/-- The machine on which the initializer of a new instance is called: the instance is there, and a frame
    in which `this` is the instance. -/
def Machine.prepared (m : Machine) (c : Class) : Machine :=
  { m with store := ⟨m.store.frames.push (Table.empty.insert "this" (some (.object m.store.objects.size c))),
      m.store.objects.push .empty, m.store.nextIdentity⟩ }

/-- How an instance is made ready: the initializer, bound to it, is called with the arguments, once; what
    it returns does not matter. -/
structure Initializes (m : Machine) (c : Class) (init : Closure) (n : Nat) (paren : Token)
    (given : List Value) : Prop where
  bound : (m.prepared c).store.slot? init.env.frame "this" = some (some (.object m.store.objects.size c))
  once : ∀ closure given' m', Calls ⟨n + 1, .call (.classOf c) paren given, m⟩ ⟨n, .callClosure closure given', m'⟩ ↔
    closure = init ∧ given' = given ∧ m' = m.prepared c
  result : call (n + 1) (.classOf c) paren given m =
    (callClosure n init given >>= fun _ => pure (.object m.store.objects.size c)) (m.prepared c)
  supplied : ∀ v m', callClosure n init given (m.prepared c) = .done v m' → ∃ k m₁, n = k + 1 ∧
    Calls ⟨n, .callClosure init given, m.prepared c⟩ ⟨k, .executeAll init.declaration.body, m₁⟩ ∧
    m₁.env.enclosing? = some init.env ∧ Supplied m₁.store m₁.env.frame init.declaration.params given

/-- The two ways in which instances of a class come about. -/
inductive Constructs (h : List Event) (m : Machine) (c : Class) : Prop where
  /-- No class of the chain has an initializer: the arguments do not matter. -/
  | plain : (∀ k ∈ c.chain, ClassBody.Lacks h k "init") →
    (∀ n paren given, call (n + 1) (.classOf c) paren given m =
      .done (.object m.store.objects.size c) { m with store := m.store.newObject.2 }) → Constructs h m c
  /-- The initializer of the nearest class that has one is bound to the instance and called. -/
  | initialized {d : FunctionDecl} {around : Env} : Finds h c.chain "init" d around →
    (∀ n paren given, Initializes m c ⟨d, around.extend m.store.frames.size, true⟩ n paren given) →
    Constructs h m c

section Classes

variable {h : List Event} {m : Machine} {c : Class}

/-- How a class is called, on a machine. -/
theorem call_class_run (n : Nat) (c : Class) (paren : Token) (given : List Value) (m : Machine) :
    call (n + 1) (.classOf c) paren given m =
      (match c.method? "init" with
        | none => pure (.object m.store.objects.size c)
        | some init => do
          let ready ← bindThis init (.object m.store.objects.size c)
          let _ ← callClosure n ready given
          pure (.object m.store.objects.size c) : Eval Value) { m with store := m.store.newObject.2 } :=
  rfl

/-- How an initializer is called for a new instance. -/
theorem initializes {d : FunctionDecl} {around : Env}
    (hinit : c.method? "init" = some ⟨d, around, true⟩) (n : Nat) (paren : Token) (given : List Value) :
    Initializes m c ⟨d, around.extend m.store.frames.size, true⟩ n paren given where
  bound := by
    have hslot := Store.slot?_push m.store.newObject.2 around
      (Table.empty.insert "this" (some (.object m.store.objects.size c))) m.store.newObject.2.frames.size "this"
    rwa [if_pos rfl, Table.get?_insert_self] at hslot
  once closure given' m' := by
    constructor
    · intro hcalls
      cases hcalls with
      | initializes hnew hfound hready =>
        cases hnew
        cases hinit.symm.trans hfound
        cases hready
        exact ⟨rfl, rfl, rfl⟩
    · rintro ⟨rfl, rfl, rfl⟩
      exact .initializes rfl hinit rfl
  result := by
    rw [call_class_run, hinit]
    rfl
  supplied v m' hdone := by
    -- A call that has come to its end has reached its body, behind the parameters.
    obtain ⟨k, m₁, -, -, hn, hcalls, henv, hsupplied, -, -⟩ := callClosure_done hdone
    refine ⟨k, m₁, hn, hcalls, ?_, ?_⟩
    · rw [henv]
      rfl
    · rw [henv]
      exact hsupplied

/-- **How a class that is known is called.** -/
theorem Reached.constructs (hr : Reached h m) (hk : Value.Known h (.classOf c)) : Constructs h m c := by
  rcases findSome?_methods "init" (hr.chronicle.chain_text hk) with
    ⟨d, around, hfinds, hfound⟩ | ⟨hlacks, hnone⟩
  · have hname : d.isInitializer = true := by
      obtain ⟨-, -, -, -, -, -, hname, -⟩ := hfinds
      rw [FunctionDecl.isInitializer, hname]
      rfl
    rw [hname] at hfound
    exact .initialized hfinds (initializes hfound)
  · have hmethod : c.method? "init" = none := hnone
    refine .plain hlacks fun n paren given => ?_
    rw [call_class_run, hmethod]
    rfl

/-- What a class gives when it is called is new. -/
theorem Reached.fresh_object (hr : Reached h m) (k : Class) : ¬ Value.Known h (.object m.store.objects.size k) := by
  rintro ⟨μ, m', hmade⟩
  have hlt := hr.chronicle.mark_lt hmade rfl
  rw [hr.store] at hlt
  exact Nat.lt_irrefl _ hlt

/-- Calling a class gives a new instance, or nothing. -/
theorem call_class {n : Nat} {paren : Token} {given : List Value} {v : Value} {m' : Machine}
    (hdone : call n (.classOf c) paren given m = .done v m') : v = .object m.store.objects.size c := by
  cases n with
  | zero => cases hdone
  | succ n =>
    rw [call_class_run] at hdone
    cases hinit : c.method? "init" with
    | none =>
      rw [hinit] at hdone
      cases hdone
      rfl
    | some init =>
      rw [hinit] at hdone
      obtain ⟨ready, t, -, hcall⟩ := Action.bind_eq_done_iff.mp hdone
      obtain ⟨_, u, -, hpure⟩ := Action.bind_eq_done_iff.mp hcall
      cases hpure
      rfl

/-- What is bound is an initializer exactly if it is called so in the text of its class. -/
theorem Chronicle.initializer_named (hc : Chronicle h) {n : Nat} {method : Closure} {v : Value} {m₀ : Machine}
    (hmem : .comes ⟨n, .bind method v, m₀⟩ ∈ h) :
    method.isInitializer = true ↔ method.declaration.displayName = "init" := by
  obtain ⟨before, after, rfl⟩ := List.append_of_mem hmem
  obtain ⟨hbefore, hground⟩ := hc.grounded rfl
  have hmatter : method.IsMethod before ∧ _ := hground.matter
  obtain ⟨c, μ, parent, around, d, -, -, -, rfl⟩ := hbefore.method_grounded hmatter.1
  show (d.displayName == "init") = true ↔ d.displayName = "init"
  exact beq_iff_eq

end Classes

/-- What construction comes to at an event. -/
structure Construction (h : List Event) (e : Event) : Prop where
  /-- A class gives a new instance of it, which has been made ready by its initializer if there is one. -/
  classes : ∀ c, Value.Known h (.classOf c) → Constructs h e.machine c
  gives : ∀ c n paren given v m', call n (.classOf c) paren given e.machine = .done v m' →
    v = .object e.machine.store.objects.size c
  fresh : ∀ k, ¬ Value.Known h (.object e.machine.store.objects.size k)
  /-- What is bound is called for the instance exactly if it has the name of an initializer. -/
  named : ∀ n method v m, .comes ⟨n, .bind method v, m⟩ ∈ h →
    (method.isInitializer = true ↔ method.declaration.displayName = "init")
  /-- A call of an initializer gives the instance to which it was bound. -/
  returns : ∀ n closure given m v m', e = .comes ⟨n, .callClosure closure given, m⟩ →
    closure.isInitializer = true → callClosure n closure given m = .done v m' →
    (∃ id c, v = .object id c) ∧ ∀ w, closure.BoundTo h w ↔ w = v

/-- **Construction gives the new instance.**  At every event of every accepted turn, whatever has happened
    in the session before: calling a class gives an instance of it that was not there before, which the
    nearest initializer, bound to it, has been called for once, with the arguments in the places of its
    parameters; without an initializer the arguments do not matter.  And wherever an initializer is
    called, the call gives the instance to which it was bound, however its body was completed. -/
theorem construction_yields_instance {interactive : Bool} {host : Host} {dealings : List Dealing} {t : Turn}
    (h : (Session.start interactive host).History dealings t.session) (ha : t.Accepted)
    {done rest : List Event} {e : Event} (hlog : t.opening.log = done ++ e :: rest) :
    Construction (historyOf (turnsOf dealings) ++ done) e := by
  obtain ⟨hr, -⟩ := reached_in_turn h ha hlog
  constructor
  · intro c hk
    exact hr.constructs hk
  · intro c n paren given v m' hdone
    exact call_class hdone
  · intro k
    exact hr.fresh_object k
  · intro n method v m hmem
    exact hr.chronicle.initializer_named hmem
  · rintro n closure given m v m' rfl hinit hdone
    exact initializer_returns h ha hlog hinit hdone

/-! ## An initializer that returns from a loop -/

namespace Returning

/-- A class whose initializer returns from within a loop. -/
def turn : Turn :=
  ⟨.start false ⟨[], #[], .whole, fun _ => 0, 0⟩, 9,
    "class A \x7b func init(a) \x7b while (true) \x7b return; \x7d \x7d \x7d A(nil, true);"⟩

/-- A name in the first line. -/
def named (name : String) : Token := ⟨.identifier, name, 1⟩

/-- The initializer. -/
def initializer : FunctionDecl :=
  .mk (some (named "init")) ⟨.keyword .funcKw, "func", 1⟩ [named "a"]
    [.whileLoop (.grouping (.literal (.bool true))) (.block [.returnValue ⟨.keyword .returnKw, "return", 1⟩ none])]

/-- The class. -/
def value : Class := ⟨⟨turn.machine.store.nextIdentity, "A", methodTable [initializer] .global⟩, []⟩

/-- The machine behind the declaration of the class. -/
def behind : Machine :=
  { turn.machine with store :=
    { turn.machine.store.put 0 "A" (some (.classOf value)) with
      nextIdentity := turn.machine.store.nextIdentity + 1 } }

/-- The program of the example is accepted. -/
theorem accepted : turn.Accepted := ⟨by cbv, by cbv⟩

/-- The program of the example. -/
theorem program_eq : turn.parsed.program =
    [.classDecl (named "A") none [initializer],
      .expression (.call (.variable ⟨0, named "A"⟩) ⟨.mark .rightParen, ")", 1⟩
        [.literal .nil, .literal (.bool true)])] := by
  cbv

/-- Its class is declared. -/
theorem declared : execute 9 (.classDecl (named "A") none [initializer]) turn.machine = .done .normal behind := by
  rfl

/-- The variable holds the class. -/
theorem held : behind.store.slot? 0 "A" = some (some (.classOf value)) := rfl

/-- The variable is a global one. -/
theorem global : behind.resolution[0]? = none := by
  show turn.machine.resolution[0]? = none
  cbv

/-- What is called is the class. -/
theorem callee : evaluate 7 (.variable ⟨0, named "A"⟩) behind = .done (.classOf value) behind := by
  have hrun : evaluate 7 (.variable ⟨0, named "A"⟩) = lookUp ⟨0, named "A"⟩ := rfl
  rw [hrun, lookUp_run, global]
  exact Lexical.atToken_done (Lexical.get_of_slot held)

/-- The initializer, bound to the instance. -/
def bound : Closure := ⟨initializer, Env.global.extend behind.store.frames.size, true⟩

/-- The call of the initializer. -/
def call : Moment := ⟨6, .callClosure bound [.nil, .bool true], behind.prepared value⟩

/-- The evaluator comes to the call. -/
theorem leads : turn.opening.Leads call := by
  have hprogram := program_eq
  unfold Turn.opening
  rw [hprogram]
  refine .head (.behindStatement nofun declared) (.head (.statement nofun) (.head .expression ?_))
  exact .head (.call callee rfl) (.single (.initializes rfl rfl rfl))

/-- The initializer returns from its loop, and gives back the instance. -/
theorem returned : ∃ m', callClosure 6 bound [.nil, .bool true] (behind.prepared value) =
    .done (.object 0 value) m' :=
  ⟨_, rfl⟩

end Returning

open Returning in
/-- With one argument too many, and a body that returns from a loop: the call of the initializer gives the
    instance to which it was bound. -/
theorem construction_yields_instance_returning :
    turn.Accepted ∧ ∃ done rest, turn.opening.log = done ++ .comes Returning.call :: rest ∧
      (∃ m', callClosure 6 bound [.nil, .bool true] (behind.prepared value) = .done (.object 0 value) m') ∧
      bound.BoundTo done (.object 0 value) ∧ Construction done (.comes Returning.call) := by
  have hcomes := (Moment.mem_logTo_of_leads (Nat.le_refl _) leads).1
  obtain ⟨done, rest, hlog⟩ := List.append_of_mem hcomes
  have hconstruction : Construction (historyOf (turnsOf []) ++ done) (.comes Returning.call) :=
    construction_yields_instance .start accepted hlog
  obtain ⟨m', hreturned⟩ := returned
  obtain ⟨-, hbound⟩ := hconstruction.returns _ _ _ _ _ _ rfl rfl hreturned
  exact ⟨accepted, done, rest, hlog, ⟨m', hreturned⟩, (hbound _).mpr rfl, hconstruction⟩

end Lox
