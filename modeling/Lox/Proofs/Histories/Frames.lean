import Lox.Proofs.Histories.Turns
import Lox.Proofs.Lexical.Dealings

/-!
  Frames of a session.

  Each frame of a chain was opened in an event, and its chain is continued by that in which it was
  opened (`Env.Known.opened`).  The names `this` and `super` are never written (`never_written`), so
  that a frame around methods holds for ever what it was opened with (`slot?_own`).

  That these two names are never written is a matter of the text and not of the evaluator, which would write
  any name.  So it takes three steps.

  1. A write that is logged at a moment is to one of the names that the moment is about to write: those of
     a declaration, of parameters, of an assignment (`Activity.Names`, `Moment.names_of_inside`).
  2. Such a name stands in the text of the program as the name of something, and reading a program puts there
     tokens that are names, which `this` and `super` are not; nor can they be assigned to (`plain_of_names`).
  3. A write in the history of a session was logged at some moment of some turn, and that turn had a past of
     its own (`Lives.turn`).

  Reading a program here means that it has been read without a report, so the turns are accepted ones.
-/

namespace Lox

open Machine Eval Scope

/-! ## Names that are written

  A slot is written only by declaring its name, by assigning to it or by supplying a parameter.  No program can
  do this to `this` and `super`. -/

/-- The names to which slots may be given at what is about to be done. -/
def Activity.Names (x : String) : Activity → Prop
  | .execute (.varDecl name _) | .execute (.classDecl name _ _) => x = name.lexeme
  | .execute (.funcDecl d) => x = (d.name.getD d.keyword).lexeme
  | .callClosure c _ => ∃ param ∈ c.declaration.params, x = param.lexeme
  | .assign ref _ => x = ref.name.lexeme
  | _ => False

namespace Moment

section Writings

variable {μ κ : Moment} {n f : Nat} {m m₁ : Machine} {x : String} {slot : Option Value}

/-- What is declared is the name of the declaration. -/
theorem name_of_declaring {name : Token} {s : Option Value}
    (h : Event.does κ m₁ (.writes f x slot) ∈ μ.declaring name s m) : x = name.lexeme := by
  unfold declaring at h
  split at h
  · cases h
  · cases List.mem_singleton.mp h
    rfl

/-- What is assigned is the name of the assignment. -/
theorem name_of_assigning {frame : Nat} {name : String} {v : Value}
    (h : Event.does κ m₁ (.writes f x slot) ∈ μ.assigning frame name v m) : x = name := by
  unfold assigning at h
  split at h
  · cases List.mem_singleton.mp h
    rfl
  · cases h

/-- What is supplied is one of the parameters. -/
theorem name_of_supplying {frame : Nat} {params : List Token} {given : List Value}
    (h : Event.does κ m₁ (.writes f x slot) ∈ μ.supplying frame params given m) :
    ∃ param ∈ params, x = param.lexeme := by
  induction params, given, m using supplying.induct frame with
  | case1 param params value values m hthere =>
    simp [supplying, hthere] at h
  | case2 param params value values m hthere ih =>
    simp only [supplying, hthere, Bool.false_eq_true, if_false, List.mem_cons] at h
    rcases h with h | h
    · cases h
      exact ⟨param, List.mem_cons_self, rfl⟩
    · obtain ⟨p, hp, hx⟩ := ih h
      exact ⟨p, List.mem_cons_of_mem _ hp, hx⟩
  | case3 params values m h' => simp [supplying] at h

/-- A method that is bound opens a frame and writes to none. -/
theorem not_written_fetching {method : Closure} {this : Value} :
    Event.does κ m₁ (.writes f x slot) ∉ μ.fetching n method this m := by
  simp [fetching, mem_after, making]

/-- To read a property writes no name. -/
theorem not_written_reading {value : Value} {name : Token} :
    Event.does κ m₁ (.writes f x slot) ∉ μ.reading n value name m := by
  intro h
  unfold reading at h
  simp only [List.mem_cons, Event.does.injEq, reduceCtorEq, and_false, false_or] at h
  split at h
  · split at h
    · split at h
      · cases h
      · exact not_written_fetching h
    · cases h
  · cases h

/-- Nor does reading it by `super`. -/
theorem not_written_readingSuper {ref : Ref} {method : Token} :
    Event.does κ m₁ (.writes f x slot) ∉ μ.readingSuper n ref method m := by
  intro h
  unfold readingSuper at h
  split at h
  · cases h
  · split at h
    · split at h
      · exact not_written_fetching h
      · cases h
    · cases h

/-- A class is declared under its name and assigned to it. -/
theorem name_of_founding {name : Token} {methods : List FunctionDecl} {parent : Option Class}
    (h : Event.does κ m₁ (.writes f x slot) ∈ μ.founding name methods parent m) : x = name.lexeme := by
  simp only [founding, List.mem_append, mem_after, List.mem_cons] at h
  rcases h with h | ⟨_, m₂, -, h | ⟨around, m₃, -, h | ⟨_, m₄, -, h⟩⟩⟩
  · exact name_of_declaring h
  · cases parent with
    | none => cases h
    | some c =>
      simp only [surrounding, List.mem_singleton] at h
      cases h
  · cases h
  · exact name_of_assigning h

/-- Expressions write at the moments within them only. -/
theorem not_written_evaluating {e : Expr} :
    Event.does κ m₁ (.writes f x slot) ∉ evaluating μ n m e := by
  intro h
  -- An expression reads, makes and stores in fields, but declares and assigns nothing in frames by itself.
  cases e with
  | get object name =>
    simp only [evaluating, List.mem_cons, reduceCtorEq, false_or, mem_after] at h
    obtain ⟨v, m', -, h⟩ := h
    exact not_written_reading h
  | set object name value =>
    simp only [evaluating, List.mem_cons, reduceCtorEq, false_or, mem_after] at h
    obtain ⟨target, m', -, h⟩ := h
    split at h
    · simp [mem_after] at h
    · cases h
  | super ref method => exact not_written_readingSuper h
  | logical left operator right =>
    simp only [evaluating, List.mem_cons, reduceCtorEq, false_or, mem_after] at h
    obtain ⟨v, m', -, h⟩ := h
    split at h <;> simp at h
  | ternary condition thenBranch elseBranch =>
    simp only [evaluating, List.mem_cons, reduceCtorEq, false_or, mem_after] at h
    obtain ⟨v, m', -, h⟩ := h
    split at h <;> simp at h
  | _ => simp [evaluating, mem_after, making] at h

/-- Statements write the names that they declare. -/
theorem names_of_executing {s : Stmt} (h : Event.does κ m₁ (.writes f x slot) ∈ executing μ n m s) :
    (Activity.execute s).Names x := by
  -- Of the statements only declarations write; all other events of a statement are moments.
  cases s with
  | varDecl name value =>
    cases value with
    | none => exact name_of_declaring h
    | some e =>
      simp only [executing, List.mem_cons, reduceCtorEq, false_or, mem_after] at h
      obtain ⟨v, m', -, h⟩ := h
      exact name_of_declaring h
  | funcDecl d =>
    simp only [executing, List.mem_append, making, List.mem_singleton, mem_after] at h
    rcases h with h | ⟨v, m', -, h⟩
    · cases h
    · exact name_of_declaring h
  | classDecl name superclass methods =>
    cases superclass with
    | none => exact name_of_founding h
    | some ref =>
      simp only [executing, List.mem_cons, reduceCtorEq, false_or, mem_after] at h
      obtain ⟨c, m', -, h⟩ := h
      exact name_of_founding h
  | ifElse condition thenBranch elseBranch =>
    simp only [executing, List.mem_cons, reduceCtorEq, false_or, mem_after] at h
    obtain ⟨v, m', -, h⟩ := h
    split at h
    · simp at h
    · cases elseBranch <;> simp at h
  | whileLoop condition body =>
    simp only [executing, List.mem_cons, reduceCtorEq, false_or, mem_after] at h
    obtain ⟨v, m', -, h⟩ := h
    split at h
    · simp only [List.mem_cons, reduceCtorEq, false_or, mem_after] at h
      obtain ⟨completion, m'', -, h⟩ := h
      cases completion <;> simp at h
    · cases h
  | returnValue keyword value => cases value <;> simp [executing] at h
  | _ => simp [executing, mem_after] at h

/-- What is written at a moment has one of the names of what is about to be done there. -/
theorem names_of_inside (h : Event.does κ m₁ (.writes f x slot) ∈ μ.inside) : μ.activity.Names x := by
  -- What writes at a moment itself is a statement, the call of a function, or the end of an assignment.
  obtain ⟨n, activity, m⟩ := μ
  cases activity with
  | evaluate e =>
    cases n with
    | zero => cases h
    | succ n => exact absurd h not_written_evaluating
  | evaluateAll es =>
    cases n with
    | zero => cases h
    | succ n => cases es <;> simp [inside, mem_after] at h
  | call v paren given =>
    cases n with
    | zero => cases h
    | succ n =>
      cases v with
      | classOf c =>
        simp only [inside, calling, creating, List.mem_cons, Event.does.injEq, reduceCtorEq, and_false,
          false_or, mem_after] at h
        obtain ⟨id, m', -, h⟩ := h
        split at h <;> simp [mem_after] at h
      | _ => simp [inside, calling] at h
  | callClosure c given =>
    cases n with
    | zero => cases h
    | succ n =>
      simp only [inside, entering, List.mem_cons, Event.does.injEq, reduceCtorEq, and_false, false_or,
        mem_after, List.mem_append, List.not_mem_nil, or_false] at h
      obtain ⟨env, m', -, h | ⟨_, _, -, h⟩⟩ := h
      · exact name_of_supplying h
  | execute s =>
    cases n with
    | zero => cases h
    | succ n => exact names_of_executing h
  | executeAll ss =>
    cases n with
    | zero => cases h
    | succ n =>
      cases ss with
      | nil => cases h
      | cons s ss =>
        simp only [inside, List.mem_cons, reduceCtorEq, false_or, mem_after] at h
        obtain ⟨completion, m', -, h⟩ := h
        cases completion <;> simp at h
  | program ss last =>
    cases ss with
    | nil => cases n <;> cases h
    | cons s ss =>
      cases s <;> simp [inside, mem_after] at h
  | lookUp ref => cases n <;> cases h
  | assign ref v =>
    rw [inside_assign] at h
    cases hf : (m.resolution[ref.id]?).elim (some Env.global.frame) m.env.ancestor? with
    | none => simp [hf] at h
    | some frame =>
      rw [hf] at h
      exact name_of_assigning h
  | bind method this => simp [inside_bind] at h

end Writings

end Moment

/-! ## Past turns -/

/-- The moments that are logged are led to. -/
theorem Moment.leads_of_comes {μ ν : Moment} (h : .comes ν ∈ μ.log) : μ.Leads ν := by
  obtain ⟨κ, hκ, heq | hin⟩ := Moment.leads_of_mem_log h
  · cases heq
    exact hκ
  · exact hκ.tail (Moment.calls_of_inside hin)

/-- The evaluator has come to the moments of the history. -/
theorem lives_of_comes {turns : List Turn} {ν : Moment} (h : .comes ν ∈ historyOf turns) :
    Lives turns ν := by
  obtain ⟨κ, hκ, heq | hin⟩ := lives_of_mem_history h
  · cases heq
    exact hκ
  · obtain ⟨u, hu, ha, hleads⟩ := hκ
    exact ⟨u, hu, ha, hleads.tail (Moment.calls_of_inside hin)⟩

section Turns

variable {interactive : Bool} {host : Host} {dealings : List Dealing} {turns : List Turn} {t : Turn}

/-- Whatever the evaluator came to, it did so in a turn whose session had a history itself. -/
theorem Lives.turn (h : (Session.start interactive host).History dealings t.session) {ν : Moment}
    (hν : Lives (t :: turnsOf dealings) ν) :
    ∃ u before, (Session.start interactive host).History before u.session ∧ u.Accepted ∧
      u.opening.Leads ν ∧ u :: turnsOf before ⊆ t :: turnsOf dealings := by
  obtain ⟨u, hu, ha, hleads⟩ := hν
  rcases List.mem_cons.mp hu with rfl | hu
  · exact ⟨u, dealings, h, ha, hleads, fun _ hv => hv⟩
  · obtain ⟨before, hbefore, hsub⟩ := h.earlier hu
    exact ⟨u, before, hbefore, ha, hleads, fun v hv => List.mem_cons_of_mem t (hsub hv)⟩

/-- What the text of a program gives names to is never `this` or `super`. -/
theorem plain_of_names (h : (Session.start interactive host).History dealings t.session) (ha : t.Accepted)
    {ν : Moment} (hν : t.opening.Leads ν) {x : String} (hx : ν.activity.Names x) :
    x ≠ "this" ∧ x ≠ "super" := by
  have hplain : ∀ {token : Token}, token.Plain → x = token.lexeme → x ≠ "this" ∧ x ≠ "super" :=
    fun ht hx => ⟨hx ▸ ht.not_this, hx ▸ ht.not_super⟩
  obtain ⟨hL, hpoised, -⟩ := Lexical.poised_of_history h ha hν
  obtain ⟨n, activity, m⟩ := ν
  cases activity with
  | callClosure c given =>
    obtain ⟨param, hparam, hx⟩ := hx
    cases hpoised with
    | callClosure _ hbound _ =>
      obtain ⟨-, hvisited, -, -, -⟩ := hbound
      exact hplain ((hL.settled hvisited).params.1 param hparam) hx
  | execute s =>
    cases hpoised with
    | execute hstands _ =>
      have hsettled := hL.settled hstands.visited
      cases s with
      | varDecl name value => exact hplain hsettled.varDecl.1 hx
      | funcDecl d =>
        obtain ⟨name, hname, hn, -⟩ := hsettled.funcDecl
        have hx' : x = (d.name.getD d.keyword).lexeme := hx
        rw [hname] at hx'
        exact hplain hn hx'
      | classDecl name superclass methods => exact hplain hsettled.classDecl.1 hx
      | _ => cases hx
  | assign ref v =>
    -- The assignment of which this is the end names the variable.
    -- An assignment comes about in an expression, one moment before.
    rcases hν.cases_tail with heq | ⟨κ, hκ, hcalls⟩
    · cases heq
    · cases hcalls with
      | assigns _ =>
        obtain ⟨hL', hpoised', -⟩ := Lexical.poised_of_history h ha hκ
        cases hpoised' with
        | evaluate hstands => exact hplain (hL'.settled hstands.visited).assign.2 hx
  | _ => cases hx

/-- The names `this` and `super` are never written. -/
theorem never_written (h : (Session.start interactive host).History dealings t.session) {μ : Moment}
    {m : Machine} {f : Nat} {x : String} {slot : Option Value}
    (hmem : .does μ m (.writes f x slot) ∈ historyOf (t :: turnsOf dealings)) : x ≠ "this" ∧ x ≠ "super" := by
  obtain ⟨ν, hν, heq | hin⟩ := lives_of_mem_history hmem
  · cases heq
  · obtain ⟨u, before, hpast, ha, hleads, -⟩ := hν.turn h
    exact plain_of_names hpast ha hleads (Moment.names_of_inside hin)

/-- The history of a turn up to an event. -/
theorem historyOf_split (ha : t.Accepted) {done rest : List Event} {e : Event}
    (hlog : t.opening.log = done ++ e :: rest) :
    historyOf (t :: turns) = (historyOf turns ++ done) ++ e :: rest := by
  rw [historyOf, Turn.log_of_accepted ha, hlog, List.append_assoc]

/-- A frame around methods holds for ever what it was opened with. -/
theorem slot?_own (h : (Session.start interactive host).History dealings t.session) (ha : t.Accepted)
    {done rest : List Event} {e : Event} (hlog : t.opening.log = done ++ e :: rest) {own : String}
    (hown : own = "this" ∨ own = "super") {v : Value} {μ : Moment} {m : Machine} {env : Env}
    (hopens : .does μ m (.opens env (Table.empty.insert own (some v))) ∈ historyOf (turnsOf dealings) ++ done) :
    e.machine.store.slot? m.store.frames.size own = some (some v) := by
  obtain ⟨hr, -⟩ := reached_in_turn h ha hlog
  have hsub : historyOf (turnsOf dealings) ++ done ⊆ historyOf (t :: turnsOf dealings) := by
    rw [historyOf_split ha hlog]
    exact List.subset_append_left _ _
  have hnever : ∀ μ' m' f slot, .does μ' m' (.writes f own slot) ∉ historyOf (turnsOf dealings) ++ done := by
    intro μ' m' f slot hmem
    obtain ⟨hthis, hsuper⟩ := never_written h (hsub hmem)
    rcases hown with rfl | rfl
    · exact hthis rfl
    · exact hsuper rfl
  -- The frame was opened with the name in it, and nothing has been written there since.
  rw [hr.store, hr.chronicle.slot?_kept hopens hnever, Table.get?_insert, if_pos rfl]

end Turns

/-! ## Chains of frames -/

section Chains

variable {h h' : List Event} {env parent : Env} {μ : Moment} {m : Machine}
  {frame : Table (Option Value)} {d f : Nat}

/-- A frame of a chain was opened in an event, inside the rest of the chain. -/
theorem Env.Known.opened (hk : env.Known h) (hf : env.ancestor? d = some f)
    (hne : f ≠ Env.global.frame) :
    ∃ μ m parent frame, .does μ m (.opens parent frame) ∈ h ∧ m.store.frames.size = f ∧
      ∀ k, env.ancestor? (d + 1 + k) = parent.ancestor? k := by
  -- The induction is on the chain: its innermost frame is the one that is sought, or that is further out.
  induction hk generalizing d with
  | global =>
    cases d with
    | zero =>
      cases hf
      exact absurd rfl hne
    | succ d => cases hf
  | @extend parent μ m frame _ hmem ih =>
    cases d with
    | zero =>
      cases hf
      refine ⟨μ, m, parent, frame, hmem, rfl, fun k => ?_⟩
      rw [Nat.zero_add, Nat.add_comm]
      rfl
    | succ d =>
      obtain ⟨μ', m', parent', frame', hmem', hsize, hrest⟩ := ih hf
      refine ⟨μ', m', parent', frame', hmem', hsize, fun k => ?_⟩
      rw [show d + 1 + 1 + k = d + 1 + k + 1 from by omega]
      exact hrest k

/-- Frames are opened once. -/
theorem Chronicle.opens_once (hc : Chronicle h) {μ' : Moment} {m' : Machine} {parent' : Env}
    {frame' : Table (Option Value)} (hmem : .does μ m (.opens parent frame) ∈ h)
    (hmem' : .does μ' m' (.opens parent' frame') ∈ h)
    (hsize : m.store.frames.size = m'.store.frames.size) :
    μ = μ' ∧ m = m' ∧ parent = parent' ∧ frame = frame' := by
  have hmark : (Event.does μ m (.opens parent frame)).mark =
      (Event.does μ' m' (.opens parent' frame')).mark := congrArg (fun n => some (Supply.frames, n)) hsize
  have heq := hc.once hmem hmem' nofun hmark
  cases heq
  exact ⟨rfl, rfl, rfl, rfl⟩

/-- If the frame of a chain that is known was opened at some time, it was before, inside the rest of the
    chain. -/
theorem Env.Known.opens (hc : Chronicle h') (hsub : h ⊆ h') (hk : env.Known h)
    (hmem : .does μ m (.opens parent frame) ∈ h') (hf : env.ancestor? d = some m.store.frames.size)
    (hne : m.store.frames.size ≠ Env.global.frame) :
    .does μ m (.opens parent frame) ∈ h ∧ ∀ k, env.ancestor? (d + 1 + k) = parent.ancestor? k := by
  obtain ⟨μ', m', parent', frame', hmem', hsize, hrest⟩ := hk.opened hf hne
  obtain ⟨rfl, rfl, rfl, rfl⟩ := hc.opens_once (hsub hmem') hmem hsize
  exact ⟨hmem', hrest⟩

/-- A chain that is known is that in which its innermost frame was opened, with the frame. -/
theorem Env.Known.eq_extend (hc : Chronicle h) (hk : env.Known h)
    (hmem : .does μ m (.opens parent frame) ∈ h) (hf : env.frame = m.store.frames.size)
    (hne : m.store.frames.size ≠ Env.global.frame) : env = parent.extend m.store.frames.size := by
  cases hk with
  | global => exact absurd hf.symm hne
  | extend _ hmem' =>
    obtain ⟨-, rfl, rfl, -⟩ := hc.opens_once hmem' hmem hf
    rfl

/-- The evaluator came to a moment before it opened a frame there. -/
theorem Chronicle.comes_of_opens (hc : Chronicle h') (hsub : h <+: h') (hcomes : .comes μ ∈ h')
    (hmem : .does μ μ.machine (.opens parent frame) ∈ h) : .comes μ ∈ h := by
  obtain ⟨later, rfl⟩ := hsub
  rcases List.mem_append.mp hcomes with hold | hnew
  · exact hold
  · -- Else the frame would already be there when the evaluator came to the moment.
    obtain ⟨meanwhile, after, rfl⟩ := List.append_of_mem hnew
    rw [← List.append_assoc] at hc
    obtain ⟨hbefore, hground⟩ := hc.grounded rfl
    have hstore : μ.machine.store = replay (h ++ meanwhile) := hground.store
    have hlt : μ.machine.store.frames.size < (replay (h ++ meanwhile)).frames.size :=
      hbefore.mark_lt (List.mem_append_left meanwhile hmem) rfl
    rw [← hstore] at hlt
    exact absurd hlt (Nat.lt_irrefl _)

end Chains

end Lox
