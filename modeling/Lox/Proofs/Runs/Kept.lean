import Lox.Proofs.Runs.Forward
import Lox.Proofs.Runs.Moments

/-!
  What a run keeps.

  A run takes nothing away (`Machine.Kept`):

  * what has been printed stays printed;
  * a name that a frame has stays in it, and keeps a value once it has one;
  * a field that an instance has it keeps, with one value or another.

  The operations of the store keep these, one lemma for each, and all that the evaluator does keeps them
  (`keeps_closed`, by the laws of all runs).

  A run that ends, whether with a value or an error, has kept them from every moment to which it has come
  (`Moment.kept_of_leads`).  This needs more than the law: the machine of a moment in the middle of a run is not
  an end of anything.  `Through y m₁ x m` says that whenever `x` ends from `m`, the action `y` within it has ended
  from `m₁`, and what there was then is still there.  Each way from a moment to one within it is of this kind
  (`Calls.through`), by cases on what the evaluator does there.
-/

namespace Lox

/-- What there is in the first store is there in the second: the names of the frames, with a value if they
    had one, and the fields of the instances. -/
structure Store.Kept (s s' : Store) : Prop where
  slots : ∀ frame name slot, s.slot? frame name = some slot →
    ∃ slot', s'.slot? frame name = some slot' ∧ (slot.isSome → slot'.isSome)
  fields : ∀ object name, (s.field? object name).isSome → (s'.field? object name).isSome

namespace Store

variable {s : Store}

/-- A store keeps what it has. -/
theorem Kept.refl (s : Store) : Kept s s := ⟨fun _ _ slot h => ⟨slot, h, id⟩, fun _ _ => id⟩

/-- What is kept twice is kept. -/
theorem Kept.trans {s s' s'' : Store} (h : Kept s s') (h' : Kept s' s'') : Kept s s'' := by
  refine ⟨fun f x slot hs => ?_, fun o x ho => h'.fields o x (h.fields o x ho)⟩
  obtain ⟨slot', hs', hsome⟩ := h.slots f x slot hs
  obtain ⟨slot'', hs'', hsome'⟩ := h'.slots f x slot' hs'
  exact ⟨slot'', hs'', fun hv => hsome' (hsome hv)⟩

/-- Where there is no frame, nothing is changed. -/
theorem slot?_put_absent {f : Nat} (hf : s.frames.size ≤ f) (x : String) (slot : Option Value) (g : Nat)
    (y : String) : (s.put f x slot).slot? g y = s.slot? g y := by
  rw [Store.put, slot?, slot?, Array.getElem?_modify]
  split
  · rename_i hfg
    subst hfg
    simp [Array.getElem?_eq_none hf]
  · rfl

/-- A slot may be given anything, but for a value nothing else than a value. -/
theorem Kept.put {f : Nat} {x : String} {slot : Option Value}
    (hx : ∀ found, s.slot? f x = some found → found.isSome → slot.isSome) : Kept s (s.put f x slot) := by
  refine ⟨fun g y found h => ?_, fun _ _ => id⟩
  by_cases hgy : f = g ∧ x = y
  · obtain ⟨rfl, rfl⟩ := hgy
    -- What has the slot is a frame of the store.
    have hf : f < s.frames.size := by
      rw [slot?, Option.bind_eq_some_iff] at h
      obtain ⟨frame, hframe, -⟩ := h
      exact (Array.getElem?_eq_some_iff.mp hframe).1
    exact ⟨slot, by rw [slot?_put s hf, if_pos ⟨rfl, rfl⟩], hx found h⟩
  · refine ⟨found, ?_, id⟩
    by_cases hf : f < s.frames.size
    · rw [slot?_put s hf, if_neg hgy, h]
    · rw [slot?_put_absent (Nat.le_of_not_lt hf), h]

/-- A field that is set is there, and the others stay. -/
theorem Kept.putField {o : Nat} {x : String} {v : Value} : Kept s (s.putField o x v) := by
  refine ⟨fun _ _ slot h => ⟨slot, h, id⟩, fun p y h => ?_⟩
  -- A field of an object that is there; of one that is not nothing is set.
  by_cases ho : o < s.objects.size
  · rw [field?_putField s ho]
    split
    · rfl
    · exact h
  · rw [Store.putField, field?, Array.getElem?_modify]
    split
    · rename_i hop
      subst hop
      rw [field?, Array.getElem?_eq_none (Nat.le_of_not_lt ho)] at h
      cases h
    · exact h

/-- A new frame comes to the end, and takes nothing from the others. -/
theorem Kept.push (env : Env) (frame : Table (Option Value)) : Kept s (s.push env frame).2 := by
  refine ⟨fun g y slot h => ⟨slot, ?_, id⟩, fun _ _ => id⟩
  have hg : g ≠ s.frames.size := by
    rintro rfl
    simp [slot?] at h
  rw [slot?_push, if_neg hg, h]

/-- A new object has no fields yet. -/
theorem Kept.newObject : Kept s s.newObject.2 := by
  refine ⟨fun _ _ slot h => ⟨slot, h, id⟩, fun o x h => ?_⟩
  have ho : o ≠ s.objects.size := by
    rintro rfl
    simp [field?] at h
  simpa only [Store.newObject, field?, Array.getElem?_push, if_neg ho] using h

/-- A step on variables gives a slot a value, or declares a name that was not there. -/
theorem Kept.get {f : Nat} {x : String} {s' : Store} (h : (Store.get f x s).state? = some s') : Kept s s' := by
  unfold Store.get at h
  split at h <;> cases h <;> exact .refl s

/-- A name that is assigned to has a value. -/
theorem Kept.assign {f : Nat} {x : String} {v : Value} {s' : Store}
    (h : (Store.assign f x v s).state? = some s') : Kept s s' := by
  unfold Store.assign at h
  split at h <;> cases h
  · exact .put fun _ _ _ => rfl
  · exact .refl s

/-- A name that is defined was not there. -/
theorem Kept.define {f : Nat} {x : String} {slot : Option Value} {s' : Store}
    (h : (Store.define f x slot s).state? = some s') : Kept s s' := by
  unfold Store.define at h
  split at h <;> cases h
  · exact .refl s
  · rename_i hfresh
    refine .put fun found hx => ?_
    rw [hx] at hfresh
    exact absurd rfl hfresh

end Store

/-- What there is in the first machine is there in the second, and what has been printed has stayed. -/
structure Machine.Kept (m m' : Machine) : Prop where
  printed : ∃ more, m'.host.printed = m.host.printed ++ more
  store : m.store.Kept m'.store

namespace Machine.Kept

variable {m m' : Machine}

/-- What is kept twice is kept. -/
theorem trans {m'' : Machine} (h : Kept m m') (h' : Kept m' m'') : Kept m m'' := by
  obtain ⟨more, hmore⟩ := h.printed
  obtain ⟨more', hmore'⟩ := h'.printed
  exact ⟨⟨more ++ more', by rw [hmore', hmore, Array.append_assoc]⟩, h.store.trans h'.store⟩

/-- Where nothing has been printed. -/
theorem of_store (hhost : m'.host = m.host) (hstore : m.store.Kept m'.store) : Kept m m' :=
  ⟨⟨#[], by rw [hhost]; simp⟩, hstore⟩

/-- A machine keeps what it has. -/
theorem refl (m : Machine) : Kept m m := of_store rfl (.refl _)

end Machine.Kept

namespace Eval

open Machine

/-- However the action ends, nothing that was there is taken away. -/
def Keeps {α : Type} (x : Eval α) : Prop := ∀ m m' : Machine, (x m).state? = some m' → m.Kept m'

section Steps

variable {α β : Type}

/-- One action and then another. -/
theorem Keeps.bind {x : Eval α} {f : α → Eval β} (hx : Keeps x) (hf : ∀ a, Keeps (f a)) : Keeps (x >>= f) := by
  intro m m' h
  obtain ⟨e, hrun⟩ | ⟨a, t, hrun, hf'⟩ := Action.state?_bind h
  · exact hx m m' (by rw [hrun]; rfl)
  · exact (hx m t (by rw [hrun]; rfl)).trans (hf a t m' hf')

/-- A step on variables keeps what the step on the store keeps. -/
theorem Keeps.atToken (token : Token) {step : StoreStep α}
    (hstep : ∀ s s', (step s).state? = some s' → s.Kept s') : Keeps (atToken token step) := by
  rintro ⟨store, env, found, host⟩ m' h
  have hstep := hstep store
  rw [Machine.atToken] at h
  generalize step store = ending at h hstep
  cases ending with
  | done a store' =>
    cases h
    exact .of_store rfl (hstep _ rfl)
  | failed fault store' =>
    cases h
    exact .of_store rfl (hstep _ rfl)
  | exhausted => cases h

/-- What the store makes. -/
theorem Keeps.make {step : Store → α × Store} (hstep : ∀ s, Store.Kept s (step s).2) : Keeps (make step) := by
  intro m m' h
  cases h
  exact .of_store rfl (hstep _)

/-- A native function can print. -/
theorem Keeps.callNative (token : Token) (native : Native) (given : List Value) :
    Keeps (callNative token native given) := by
  rintro ⟨store, env, found, host⟩ m' h
  have hprinted := (Forward.callNative token native given _ _ h).printed
  rw [Machine.callNative] at h
  generalize nativeAnswer given host native = answer at h
  obtain ⟨result, host'⟩ := answer
  cases result with
  | ok value =>
    cases h
    exact ⟨hprinted, .refl _⟩
  | error fault =>
    cases h
    exact ⟨hprinted, .refl _⟩

/-- Which frames are current does not matter. -/
theorem Keeps.within (env : Env) {x : Eval α} (hx : Keeps x) : Keeps (Machine.within env x) := by
  intro m u h
  obtain ⟨t, ht, rfl⟩ := state?_within h
  exact ⟨(hx _ _ ht).printed, (hx _ _ ht).store⟩

end Steps

/-- Every step keeps what there is. -/
theorem keeps_closed : Closed @Keeps where
  pure a := by
    intro m m' h
    cases h
    exact .refl m
  bind := Keeps.bind
  outOfFuel := nofun
  read view := by
    intro m m' h
    cases h
    exact .refl m
  failAt token fault := by
    intro m m' h
    cases h
    exact .refl m
  get token _ _ := .atToken token fun _ _ => .get
  assign token _ _ _ := .atToken token fun _ _ => .assign
  define token _ _ _ := .atToken token fun _ _ => .define
  push env frame := .make fun _ => .push env frame
  newObject := .make fun _ => .newObject
  newIdentity := .make fun s => ⟨(Store.Kept.refl s).slots, (Store.Kept.refl s).fields⟩
  setField object name value := by
    intro m m' h
    cases h
    exact .of_store rfl .putField
  callNative := .callNative
  within := .within

/-- The law, of all runs. -/
theorem keeps (fuel : Nat) : Rules @Keeps fuel := keeps_closed.rules fuel

/-- To read a variable changes nothing. -/
theorem getAt_run {token : Token} {env : Env} {distance : Nat} {name : String} {m : Machine} {v : Value}
    {s : Store} (h : Store.getAt env distance name m.store = .done v s) :
    atToken token (Store.getAt env distance name) m = .done v m := by
  have hs : s = m.store := by
    unfold Store.getAt Store.ancestor at h
    cases hf : env.ancestor? distance with
    | none =>
      rw [hf] at h
      cases h
    | some frame =>
      rw [hf] at h
      have hget : Store.get frame name m.store = .done v s := h
      unfold Store.get at hget
      split at hget <;> cases hget
      rfl
  rw [atToken, h, hs]

/-- Whenever the second action ends from its machine, the first has ended from its own, and what there was
    then is still there. -/
def Through {α β : Type} (y : Eval β) (m₁ : Machine) (x : Eval α) (m : Machine) : Prop :=
  ∀ u, (x m).state? = some u → ∃ t, (y m₁).state? = some t ∧ t.Kept u

namespace Through

variable {α β γ : Type} {y : Eval γ} {x : Eval α} {f : α → Eval β} {m m₁ m' : Machine} {a : α}

/-- What is about to run runs through its beginning. -/
theorem self : Through x m x m := fun u h => ⟨u, h, .refl u⟩

/-- In the first action of a sequence. -/
theorem first (hx : Through y m₁ x m) (hf : ∀ a, Keeps (f a)) : Through y m₁ (x >>= f) m := by
  intro u h
  obtain ⟨e, hrun⟩ | ⟨a, t, hrun, hft⟩ := Action.state?_bind h
  · exact hx u (by rw [hrun]; rfl)
  · obtain ⟨t', ht', hkept⟩ := hx t (by rw [hrun]; rfl)
    exact ⟨t', ht', hkept.trans (hf a t u hft)⟩

theorem map {g : α → β} (hx : Through y m₁ x m) : Through y m₁ (g <$> x) m := by
  rw [map_eq_pure_bind]
  exact hx.first fun a => keeps_closed.pure (g a)

/-- Behind the first action of a sequence. -/
theorem next (hrun : x m = .done a m') (hf : Through y m₁ (f a) m') : Through y m₁ (x >>= f) m := by
  intro u h
  rw [Action.bind_of_done hrun] at h
  exact hf u h

/-- Inside other frames the end is put back into these. -/
theorem within {env : Env} (hx : Through y m₁ x { m with env := env }) :
    Through y m₁ (Machine.within env x) m := by
  intro u h
  obtain ⟨t, ht, rfl⟩ := state?_within h
  obtain ⟨t', ht', hkept⟩ := hx t ht
  exact ⟨t', ht', hkept.printed, hkept.store⟩

end Through

end Eval

/-! ## Moments

  From a moment within a run to the end of the run, along the calls that lead there. -/

open Machine Eval

/-- What comes of an activity that is done. -/
def Activity.Answer : Activity → Type
  | .evaluate _ | .call _ _ _ | .callClosure _ _ | .lookUp _ => Value
  | .evaluateAll _ => List Value
  | .execute _ | .executeAll _ => Completion
  | .program _ _ => Option Value
  | .assign _ _ => Unit
  | .bind _ _ => Closure

/-- What the evaluator does from the moment on. -/
def Moment.run : (μ : Moment) → Eval μ.activity.Answer
  | ⟨n, .evaluate e, _⟩ => evaluate n e
  | ⟨n, .evaluateAll es, _⟩ => evaluateAll n es
  | ⟨n, .call f paren given, _⟩ => call n f paren given
  | ⟨n, .callClosure closure given, _⟩ => callClosure n closure given
  | ⟨n, .execute s, _⟩ => execute n s
  | ⟨n, .executeAll ss, _⟩ => executeAll n ss
  | ⟨n, .program ss last, _⟩ => runAll n ss last
  | ⟨_, .lookUp ref, _⟩ => lookUp ref
  | ⟨_, .assign ref value, _⟩ => assign ref value
  | ⟨_, .bind method this, _⟩ => bindThis method this

/-- Whatever a moment is about. -/
theorem Moment.keeps_run (μ : Moment) : Keeps μ.run := by
  obtain ⟨n, activity, m⟩ := μ
  have c := keeps_closed
  cases activity with
  | evaluate e => exact (keeps n).evaluate e
  | evaluateAll es => exact (keeps n).evaluateAll es
  | call f paren given => exact (keeps n).call f paren given
  | callClosure closure given => exact (keeps n).callClosure closure given
  | execute s => exact (keeps n).execute s
  | executeAll ss => exact (keeps n).executeAll ss
  | program ss last => exact c.program n ss last
  | lookUp ref => exact c.lookUp ref
  | assign ref value => exact c.assignTo ref value
  | bind method this => exact c.bindThis method this

/-- A statement that shows no value is run as in a block, but that its completion is not looked at. -/
theorem runAll_statement {s : Stmt} (hs : ∀ e, s ≠ .value e) {n : Nat} {ss : List Stmt} {last : Option Value} :
    runAll n (s :: ss) last = (execute n s >>= fun _ => runAll n ss last) := by
  rw [runAll]
  exact hs

/-- **A moment that ends has kept what there was when a moment directly within it ended.** -/
theorem Calls.through {μ ν : Moment} (h : Calls μ ν) :
    Through ν.run ν.machine μ.run μ.machine := by
  have c := keeps_closed
  have k := keeps
  -- What is done before the moment within is passed over; what is done behind it keeps all.
  cases h with
  | grouping | «variable» | this | closure => exact Through.self
  | operand => exact Through.first .self fun _ => c.liftAt _ _
  | left => exact Through.first .self fun _ => c.bind ((k _).evaluate _) fun _ => c.liftAt _ _
  | right hl => exact Through.next hl (.first .self fun _ => c.liftAt _ _)
  | leftLogical =>
    refine Through.first .self fun a => ?_
    split
    · exact c.pure a
    · exact (k _).evaluate _
  | rightLogical hl hs =>
    refine Through.next hl ?_
    rw [hs]
    exact .self
  | condition =>
    refine Through.first .self fun a => ?_
    split <;> exact (k _).evaluate _
  | thenValue hc hv | elseValue hc hv | thenBranch hc hv | elseBranch hc hv =>
    refine Through.next hc ?_
    rw [hv]
    exact .self
  | assigned => exact Through.first .self fun v => c.bind (c.assignTo _ v) fun _ => c.pure v
  | assigns he => exact Through.next he (.first .self fun _ => c.pure _)
  | callee =>
    exact Through.first .self fun f => c.bind ((k _).evaluateAll _) fun given => (k _).call f _ given
  | arguments hc => exact Through.next hc (.first .self fun given => (k _).call _ _ given)
  | call hc hes => exact Through.next hc (.next hes .self)
  | object => exact Through.first .self fun value => c.getProperty value _
  | method ho hfield hmethod hinit =>
    refine Through.next ho (.next (congrArg (Ending.done · _) hfield) ?_)
    dsimp only
    rw [hmethod]
    dsimp only
    rw [if_neg hinit]
    exact .first .self fun _ => c.functionValue _
  | target =>
    refine Through.first .self fun o => ?_
    cases o with
    | object => exact c.bind ((k _).evaluate _) fun v => c.bind (c.setField _ _ _) fun _ => c.pure v
    | _ => exact c.failAt _ _
  | field ho => exact Through.next ho (.first .self fun v => c.bind (c.setField _ _ _) fun _ => c.pure v)
  | superMethod hd hc ho hm =>
    refine Through.next rfl (.next (congrArg (Ending.done · _) hd) ?_)
    dsimp only
    refine .next (getAt_run hc) (.next (getAt_run ho) ?_)
    dsimp only
    rw [hm]
    exact .first .self fun _ => c.functionValue _
  | firstExpr => exact Through.first .self fun _ => c.bind ((k _).evaluateAll _) fun _ => c.pure _
  | otherExprs he => exact Through.next he (.first .self fun _ => c.pure _)
  | created hnew hinit =>
    refine Through.next hnew ?_
    dsimp only
    rw [hinit]
    exact .first .self fun _ => c.bind ((k _).callClosure _ _) fun _ => c.pure _
  | initializes hnew hinit hready =>
    refine Through.next hnew ?_
    dsimp only
    rw [hinit]
    exact .next hready (.first .self fun _ => c.pure _)
  | body hpush hparams =>
    exact Through.next hpush (.next hparams (.first (.within .self) fun _ => c.answer _ _))
  | expression | value => exact Through.first .self fun _ => c.pure _
  | initializer => exact Through.first (.map .self) fun _ => c.bind (c.defineHere _ _) fun _ => c.pure _
  | block hpush => exact Through.next rfl (.next hpush (.within .self))
  | decision =>
    refine Through.first .self fun v => ?_
    split
    · exact (k _).execute _
    · split
      · exact c.pure _
      · exact (k _).execute _
  | test =>
    refine Through.first .self fun v => ?_
    split
    · refine c.bind ((k _).execute _) fun completion => ?_
      cases completion with
      | normal => exact (k _).execute _
      | _ => exact c.pure _
    · exact c.pure _
  | round hc hv =>
    refine Through.next hc ?_
    rw [hv]
    refine .first .self fun completion => ?_
    cases completion with
    | normal => exact (k _).execute _
    | _ => exact c.pure _
  | again hc hv hb =>
    refine Through.next hc ?_
    rw [hv]
    exact .next hb .self
  | superclass =>
    refine Through.first (.first (.map (.first .self fun value => ?_)) fun parent => ?_) fun _ => c.pure _
    · cases value with
      | classOf => exact c.pure _
      | _ => exact c.failAt _ _
    · refine c.bind (c.defineHere _ _) fun _ => c.bind (c.read _) fun env => c.bind ?_ fun _ =>
        c.bind c.newIdentity fun _ => c.assign _ _ _ _
      cases parent with
      | none => exact c.pure _
      | some parent => exact c.push _ _
  | returned => exact Through.first (.map .self) fun _ => c.pure _
  | firstStmt =>
    refine Through.first .self fun completion => ?_
    cases completion with
    | normal => exact (k _).executeAll _
    | _ => exact c.pure _
  | otherStmts hs => exact Through.next hs .self
  | shown => exact Through.first .self fun v => c.program _ _ _
  | behindShown he => exact Through.next he .self
  | @statement n s ss last m hs =>
    show Through _ _ (runAll n (s :: ss) last) _
    rw [runAll_statement hs]
    exact .first .self fun _ => c.program _ _ _
  | @behindStatement n s ss last m completion m' hs hdone =>
    show Through _ _ (runAll n (s :: ss) last) _
    rw [runAll_statement hs]
    exact .next hdone .self

/-- **A run that ends has kept what there was at every moment to which it came.** -/
theorem Moment.kept_of_leads {μ ν : Moment} (h : μ.Leads ν) {m : Machine}
    (hm : (μ.run μ.machine).state? = some m) : ν.machine.Kept m := by
  -- From the outermost moment inwards: each that ends has seen the next one end.
  induction h using Relation.ReflTransGen.head_induction_on generalizing m with
  | refl => exact ν.keeps_run _ _ hm
  | head hcalls _ ih =>
    obtain ⟨m', hm', hkept⟩ := hcalls.through m hm
    exact (ih hm').trans hkept

end Lox
