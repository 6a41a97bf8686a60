import Mathlib
import Lox.Proofs.Histories.Frames
import Lox.Proofs.Lexical.Chains
import Lox.Proofs.Scope.Nesting

/-!
  Where `this` and `super` lead.

  Two frames lie around a method that runs, if its class extends another: that with the instance to
  which the method was bound, and outside it that with the class that the class statement found its
  superclass to be.  However deep in blocks and functions of the method the evaluator stands, the
  distances that were recorded lead to these two (`serves`, `comes_from`), and they hold for ever what
  they were made with (`slot?_own`).  So neither the class of the instance nor what the variables of the
  classes hold meanwhile matters for what `super` finds (`super_dispatches_statically`).

  The argument goes from the text to the frames and from there to the past.

  1. Where `this` or `super` stands, the walk is in the text of a method, so many scopes deep (`InMethod`),
     and the distance that was recorded counts these scopes.
  2. At every moment the chain of frames is aligned with the scopes of the walk; so the frame at the distance
     is an instance of the scope of the method's class, and it was made at the moment at which such frames are
     made: when a method is bound, when a class is declared (`Made.bound`, `Made.extended`).
  3. That moment is in the history, and the frame was opened there and nowhere else (`Chronicle.opens_once`).
     What it was opened with is what it holds now.

  That the class in the frame of `super` is the superclass as it was found by the statement of the very class
  whose text has the method needs one thing more: a class statement without a superclass makes no such frame,
  and its methods do not see one either (`not_super_frame`).
-/

namespace Lox

open Machine Eval Scope

/-! ## Frames around methods

  From inside outward: the frame of the call, the frame with `this`, and for a subclass the frame with `super`. -/

/-- Frame by frame the chain is that of the layers. -/
theorem Aligned.frame_at {turns : List Turn} {m : Machine} {p : Site} {frames : List Nat}
    (h : Aligned turns m p frames) {i : Nat} {ℓ : Layer} (hℓ : p.layers[i]? = some ℓ) :
    ∃ f, m.env.ancestor? i = some f ∧ Instance turns m f ℓ := by
  obtain ⟨hlt, rfl⟩ := List.getElem?_eq_some_iff.mp hℓ
  have hlt' : i < frames.length := by
    rw [h.length_eq, h.covers.length_eq]
    exact hlt
  exact ⟨frames[i], h.chain.ancestor? (List.getElem?_eq_getElem hlt'),
    (List.forall₂_iff_get.mp h.instances).2 i hlt' hlt⟩

section Made

variable {lived : Moment → Prop} {visited : Site → Prop} {f : Nat} {ℓ : Layer} {opener : Visit}

/-- The frame of an instance was made when a method was bound to it. -/
theorem Made.bound (h : Made lived visited f ℓ) (hk : ℓ.kind = .this) :
    ∃ n method v m ctx w kind ls, lived ⟨n, .bind method v, m⟩ ∧
      visited ⟨⟨ctx, w, .function kind method.declaration⟩, ℓ :: ls⟩ ∧ m.store.frames.size = f := by
  cases h with
  | this hlived hvisited _ => exact ⟨_, _, _, _, _, _, _, _, hlived, hvisited, rfl⟩
  | block | function | super => cases hk

/-- The frame of a function was made when it was called. -/
theorem Made.called {ctx : Context} {w : Walk} {kind : BodyKind} {d : FunctionDecl}
    (h : Made lived visited f ℓ) (hℓ : ℓ = functionLayer ctx w kind d) :
    ∃ n c given m, lived ⟨n + 1, .callClosure c given, m⟩ ∧ c.declaration = d ∧
      m.store.frames.size = f := by
  cases h with
  | function hlived _ =>
    have hphrase := congrArg (·.opener.phrase) hℓ
    cases hphrase
    exact ⟨_, _, _, _, hlived, rfl, rfl⟩
  | block _ _ => cases congrArg (·.opener.phrase) hℓ
  | super _ _ _ _ => cases congrArg Layer.kind hℓ
  | this _ _ hk =>
    rw [hℓ] at hk
    cases hk

/-- The frame of a superclass was made when the class that extends it was declared. -/
theorem Made.extended (h : Made lived visited f ℓ) (hk : ℓ.kind = .super) :
    ∃ n name ref ds m c m' m'', lived ⟨n + 1, .execute (.classDecl name (some ref) ds), m⟩ ∧
      superclassOf ref m = .done c m' ∧ define name none m' = .done () m'' ∧
      m''.store.frames.size = f ∧ ℓ.opener.phrase = .stmt (.classDecl name (some ref) ds) := by
  cases h with
  | super hlived _ hc hd => exact ⟨_, _, _, _, _, _, _, _, hlived, hc, hd, rfl, rfl⟩
  | block | function => cases hk
  | this _ _ hk' =>
    rw [hk] at hk'
    cases hk'

/-- The frame of a block or a function was made at no declaration of a class. -/
theorem Made.body (h : Made lived visited f ℓ) (hk : ℓ.kind = .body) :
    ∃ μ m env, lived μ ∧ .does μ m (.opens env .empty) ∈ μ.inside ∧ m.store.frames.size = f ∧
      ∀ n name superclass ds m, μ ≠ ⟨n, .execute (.classDecl name superclass ds), m⟩ := by
  cases h with
  | @block n ss m _ _ _ hlived _ =>
    refine ⟨⟨n + 1, .execute (.block ss), m⟩, m, m.env, hlived, List.mem_cons_self, rfl, ?_⟩
    intro n' name superclass ds m' heq
    cases heq
  | @function n c given m _ _ _ _ hlived _ =>
    refine ⟨⟨n + 1, .callClosure c given, m⟩, m, c.env, hlived, List.mem_cons_self, rfl, ?_⟩
    intro n' name superclass ds m' heq
    cases heq
  | super => cases hk
  | this _ _ hk' =>
    rw [hk] at hk'
    cases hk'

end Made

/-- A declaration of a class that extends another opens a frame with that. -/
theorem Moment.opens_of_classDecl {n : Nat} {name : Token} {ref : Ref} {ds : List FunctionDecl}
    {m m' m'' : Machine} {c : Class} (hc : superclassOf ref m = .done c m')
    (hd : define name none m' = .done () m'') :
    .does ⟨n + 1, .execute (.classDecl name (some ref) ds), m⟩ m''
        (.opens m''.env (Table.empty.insert "super" (some (.classOf c)))) ∈
      Moment.inside ⟨n + 1, .execute (.classDecl name (some ref) ds), m⟩ := by
  simp only [inside, executing, List.mem_cons, reduceCtorEq, false_or, mem_after, founding,
    List.mem_append]
  exact ⟨c, m', hc, .inr ⟨(), m'', hd, .inl (List.mem_singleton_self _)⟩⟩

/-! ## Text and frames of a method that runs

  The text of a method tells which class it is in; the frames tell which instance and which class object it runs
  for.  That the two agree is what dispatch rests on. -/

/-- The walk came to the site in the text of a method of the class that is declared so. -/
structure InText (turns : List Turn) (p : Site) (d : FunctionDecl) (name : Token)
    (superclass : Option Ref) (ds : List FunctionDecl) (depth : Nat) : Prop where
  seen : Seen turns p
  nested : ∃ opener, InMethod d opener superclass.isSome p.layers depth ∧
    opener.phrase = .stmt (.classDecl name superclass ds)
  mem : d ∈ ds

/-- At this depth the chain leads to the frame of a call of the function, which was one of the method
    bound to the instance: right outside lies the frame in which the method was bound. -/
inductive Serves (h : List Event) (env : Env) (depth : Nat) (d : FunctionDecl) (method : Closure)
    (v : Value) : Prop where
  | call {n : Nat} {m : Machine} {n' : Nat} {c : Closure} {given : List Value} {m' : Machine} :
    .comes ⟨n, .bind method v, m⟩ ∈ h →
    .does ⟨n, .bind method v, m⟩ m (.opens method.env (Table.empty.insert "this" (some v))) ∈ h →
    .does ⟨n', .callClosure c given, m'⟩ m' (.opens c.env .empty) ∈ h →
    c.declaration = d → c.env = method.env.extend m.store.frames.size →
    env.ancestor? depth = some m'.store.frames.size →
    env.ancestor? (depth + 1) = some m.store.frames.size → Serves h env depth d method v

/-- The method is one of a class that has come about as the statement says. -/
inductive Closure.ComesFrom (h : List Event) (method : Closure) (name : Token)
    (superclass : Option Ref) (ds : List FunctionDecl) (parent : Option Class) : Prop where
  | declared {n : Nat} {m : Machine} {c : Class} {around : Env} {d : FunctionDecl} :
    Value.Known h (.classOf c) →
    Class.Grounded h ⟨n, .execute (.classDecl name superclass ds), m⟩ c parent around → d ∈ ds →
    method = ⟨d, around, d.isInitializer⟩ → ComesFrom h method name superclass ds parent

section Turns

variable {interactive : Bool} {host : Host} {dealings : List Dealing} {t : Turn} {done rest : List Event}
  {e : Event}

/-- In the text of a method the chain leads to the instance to which the method was bound. -/
theorem serves (h : (Session.start interactive host).History dealings t.session) (ha : t.Accepted)
    (hlog : t.opening.log = done ++ e :: rest) {p : Site} {frames : List Nat}
    (haligned : Aligned (t :: turnsOf dealings) e.machine p frames) {d : FunctionDecl} {opener : Visit}
    {extending : Bool} {depth : Nat} (hin : InMethod d opener extending p.layers depth) :
    ∃ method id c f, Serves (historyOf (turnsOf dealings) ++ done) e.machine.env depth d method (.object id c) ∧
      method.IsMethod (historyOf (turnsOf dealings) ++ done) ∧ e.machine.env.ancestor? (depth + 1) = some f ∧
      e.machine.store.slot? f "this" = some (some (.object id c)) ∧
      ∀ k, e.machine.env.ancestor? (depth + 2 + k) = method.env.ancestor? k := by
  obtain ⟨hr, -⟩ := reached_in_turn h ha hlog
  have hall : Chronicle (historyOf (t :: turnsOf dealings)) := ((reached_of_history h).turn ha).1
  have hprefix : historyOf (turnsOf dealings) ++ done <+: historyOf (t :: turnsOf dealings) :=
    ⟨e :: rest, (historyOf_split ha hlog).symm⟩
  -- The frames at the two places of the chain: that of the call, and that of the instance around it.
  obtain ⟨⟨ctx, w, kind, hfunction⟩, hthis⟩ := hin.layers
  obtain ⟨f, hf, hinstance⟩ := haligned.frame_at hthis
  obtain ⟨g, hg, hinstance'⟩ := haligned.frame_at hfunction
  obtain ⟨n, method, v, m, -, -, -, -, hlived, -, rfl⟩ := hinstance.made.bound rfl
  obtain ⟨n', c, given, m', hlived', hdecl, rfl⟩ := hinstance'.made.called rfl
  obtain ⟨hcomes, hdoes⟩ := mem_history_of_lives hlived
  obtain ⟨-, hdoes'⟩ := mem_history_of_lives hlived'
  have hopens := hdoes m (.opens method.env (Table.empty.insert "this" (some v)))
    (by rw [Moment.inside_bind]; exact List.mem_singleton_self _)
  have hopens' := hdoes' m' (.opens c.env .empty) List.mem_cons_self
  obtain ⟨hbound, hrest⟩ := hr.env.opens hall hprefix.subset hopens hf hinstance.inner
  obtain ⟨hcalled, hrest'⟩ := hr.env.opens hall hprefix.subset hopens' hg hinstance'.inner
  have hcome := hall.comes_of_opens hprefix hcomes hbound
  -- The frame of the call lies directly inside that of the instance.
  have hframe : some c.env.frame = some m.store.frames.size := (hrest' 0).symm.trans hf
  have hknown : c.env.Known (historyOf (turnsOf dealings) ++ done) := by
    obtain ⟨before, after, hsplit⟩ := List.append_of_mem hcalled
    have hmatter : c.env.Known before ∧ _ := (hr.chronicle.grounded hsplit).2.matter
    exact hmatter.1.mono (hsplit ▸ List.subset_append_left _ _)
  have hinside := hknown.eq_extend hr.chronicle hbound (Option.some.inj hframe) hinstance.inner
  obtain ⟨hmethod, id, k, rfl⟩ : method.IsMethod (historyOf (turnsOf dealings) ++ done) ∧ ∃ id k, v = .object id k := by
    obtain ⟨before, after, hsplit⟩ := List.append_of_mem hcome
    have hmatter : method.IsMethod before ∧ ∃ id k, v = .object id k ∧ _ :=
      (hr.chronicle.grounded hsplit).2.matter
    obtain ⟨hm, id, k, hv, -⟩ := hmatter
    exact ⟨hm.mono (hsplit ▸ List.subset_append_left _ _), id, k, hv⟩
  exact ⟨method, id, k, m.store.frames.size, .call hcome hbound hcalled hdecl hinside hg hf, hmethod, hf,
    slot?_own h ha hlog (.inl rfl) hbound, hrest⟩

/-- Where a class is declared the innermost frame is that of no superclass. -/
theorem not_super_frame (h : (Session.start interactive host).History dealings t.session) (ha : t.Accepted)
    {n : Nat} {name : Token} {superclass : Option Ref} {ds : List FunctionDecl} {m : Machine}
    (hlives : Lives (t :: turnsOf dealings) ⟨n, .execute (.classDecl name superclass ds), m⟩) {n' : Nat}
    {name' : Token} {superclass' : Option Ref} {ds' : List FunctionDecl} {m' m'' : Machine} {env : Env}
    {frame : Table (Option Value)}
    (hopens : .does ⟨n', .execute (.classDecl name' superclass' ds'), m'⟩ m'' (.opens env frame) ∈
      historyOf (t :: turnsOf dealings)) (hne : m''.store.frames.size ≠ Env.global.frame) :
    m.env.frame ≠ m''.store.frames.size := by
  intro hframe
  have hall : Chronicle (historyOf (t :: turnsOf dealings)) := ((reached_of_history h).turn ha).1
  obtain ⟨u, before, hpast, hu, hleads, hsub⟩ := hlives.turn h
  obtain ⟨hL, hpoised, -⟩ := Lexical.poised_of_history hpast hu hleads
  obtain ⟨⟨⟨ctx, w, phrase⟩, ls⟩, frames, hphrase, haligned, -⟩ := hpoised.aligned hL rfl
  obtain ⟨v, hv, hvaccepted, hvisited⟩ := haligned.seen
  cases hphrase
  have hnest : Nest ls := hvisited.nested
  have hancestor : m.env.ancestor? 0 = some m''.store.frames.size := congrArg some hframe
  cases ls with
  | nil =>
    -- Outside all scopes the innermost frame is that of the globals.
    have hnil : frames = [] := by
      rw [← List.length_eq_zero_iff, haligned.length_eq, haligned.covers.length_eq]
      rfl
    have hchain : m.env.frame :: m.env.outer = frames ++ [Env.global.frame] := haligned.chain
    rw [hnil] at hchain
    exact hne (hframe.symm.trans (List.cons.inj hchain).1)
  | cons ℓ ls =>
    obtain ⟨f, hf, hinstance⟩ := haligned.frame_at (i := 0) rfl
    cases hancestor.symm.trans hf
    obtain ⟨μ, m₁, env₁, hlived, hin, hsize, hother⟩ := hinstance.made.body hnest.head
    have hmem := (mem_history_of_lives (hlived.mono hsub)).2 m₁ _ hin
    obtain ⟨rfl, -⟩ := hall.opens_once hmem hopens hsize
    exact hother _ _ _ _ _ rfl

/-- In the text of a method of a class that extends another, the chain leads to the class that the
    superclass was found to be when the class was declared. -/
theorem comes_from (h : (Session.start interactive host).History dealings t.session) (ha : t.Accepted)
    (hlog : t.opening.log = done ++ e :: rest) {p : Site} {frames : List Nat}
    (haligned : Aligned (t :: turnsOf dealings) e.machine p frames) {i : Nat} {opener : Visit} {name : Token}
    {ref : Ref} {ds : List FunctionDecl} (hsuper : p.layers[i]? = some (superLayer opener))
    (hopener : opener.phrase = .stmt (.classDecl name (some ref) ds)) {method : Closure}
    (hmethod : method.IsMethod (historyOf (turnsOf dealings) ++ done))
    (hframe : e.machine.env.ancestor? i = some method.env.frame) :
    ∃ c, method.ComesFrom (historyOf (turnsOf dealings) ++ done) name (some ref) ds (some c) ∧
      e.machine.store.slot? method.env.frame "super" = some (some (.classOf c)) := by
  obtain ⟨hr, -⟩ := reached_in_turn h ha hlog
  have hall : Chronicle (historyOf (t :: turnsOf dealings)) := ((reached_of_history h).turn ha).1
  have hsub : historyOf (turnsOf dealings) ++ done ⊆ historyOf (t :: turnsOf dealings) := by
    rw [historyOf_split ha hlog]
    exact List.subset_append_left _ _
  obtain ⟨f, hf, hinstance⟩ := haligned.frame_at hsuper
  cases hframe.symm.trans hf
  obtain ⟨n, name', ref', ds', m, c, m', m'', hlived, hc, hd, hsize, hopener'⟩ :=
    hinstance.made.extended rfl
  have hopener'' : opener.phrase = .stmt (.classDecl name' (some ref') ds') := hopener'
  cases hopener.symm.trans hopener''
  -- The frame was opened at the statement of the class that has the text; the method comes from a class whose
  -- statement opened the same frame, so it is that class.
  have hopens := (mem_history_of_lives hlived).2 m'' _ (Moment.opens_of_classDecl hc hd)
  obtain ⟨k, μ, parent, around, d, hk, hclass, ⟨n₁, name₁, superclass₁, ds₁, m₁, rfl, hd₁⟩, rfl⟩ :=
    hr.chronicle.method_grounded hmethod
  cases parent with
  | none =>
    -- Without a superclass the methods would see what the statement sees.
    have hlives := lives_of_comes (hsub hclass.come)
    have hplain : around = m₁.env := hclass.plain rfl
    have hne : m''.store.frames.size ≠ Env.global.frame := hsize ▸ hinstance.inner
    exact absurd (hplain ▸ hsize.symm) (not_super_frame h ha hlives hopens hne)
  | some s =>
    obtain ⟨-, m₂, env, haround, hopens'⟩ := hclass.super s rfl
    have hsize' : m₂.store.frames.size = m''.store.frames.size := by
      rw [hsize]
      show _ = around.frame
      rw [haround]
      rfl
    obtain ⟨hμ, rfl, -, -⟩ := hall.opens_once (hsub hopens') hopens hsize'
    cases hμ
    refine ⟨s, .declared hk hclass hd₁ rfl, ?_⟩
    show e.machine.store.slot? around.frame "super" = _
    rw [haround]
    exact slot?_own h ha hlog (.inr rfl) hopens'

/-! ## Dispatch -/

/-- What `this` and `super` come to at an event. -/
structure Dispatch (turns : List Turn) (h : List Event) (e : Event) : Prop where
  /-- A method that was bound to an instance keeps it, whatever has happened since: in the innermost
      frame that a call of it sees, `this` is that instance still. -/
  kept : ∀ n method v m bound m', bindThis method v m = .done bound m' →
    .does ⟨n, .bind method v, m⟩ m (.opens method.env (Table.empty.insert "this" (some v))) ∈ h →
    bound.declaration = method.declaration ∧
      e.machine.store.slot? bound.env.frame "this" = some (some v)
  /-- In a method of a class, `this` is the instance to which the method was bound that runs. -/
  this : ∀ n ref m, e = .comes ⟨n + 1, .evaluate (.this ref), m⟩ →
    ∃ p d name superclass ds depth method v, p.phrase = .expr (.this ref) ∧
      InText turns p d name superclass ds depth ∧ Serves h m.env depth d method v ∧
      evaluate (n + 1) (.this ref) m = .done v m
  /-- In a method of a class that extends another, `super` looks the method up in the class that the
      superclass was found to be when the class was declared, and binds it to what is `this` there. -/
  super : ∀ n ref method m, e = .comes ⟨n + 1, .evaluate (.super ref method), m⟩ →
    ∃ p d name extended ds depth running id c superclass, p.phrase = .expr (.super ref method) ∧
      InText turns p d name (some extended) ds depth ∧
      Serves h m.env depth d running (.object id c) ∧
      running.ComesFrom h name (some extended) ds (some superclass) ∧
      (∀ k ref', ref'.name.lexeme = "this" → Recorded m.resolution p.walk ref' →
        evaluate (k + 1) (.this ref') m = .done (.object id c) m) ∧
      evaluate (n + 1) (.super ref method) m = match superclass.method? method.lexeme with
        | none => .failed ⟨method, .undefinedProperty⟩ m
        | some found => .done
          (.function m.store.nextIdentity
            ⟨found.declaration, found.env.extend m.store.frames.size, found.isInitializer⟩)
          { m with store :=
            ⟨m.store.frames.push (Table.empty.insert "this" (some (.object id c))), m.store.objects,
              m.store.nextIdentity + 1⟩ }

/-- What the walk found is `this` at a distance at which the machine has a value. -/
theorem evaluate_this {m : Machine} {n d f : Nat} {ref : Ref} {v : Value}
    (hr : m.resolution[ref.id]? = some d) (hname : ref.name.lexeme = "this")
    (hf : m.env.ancestor? d = some f) (hslot : m.store.slot? f "this" = some (some v)) :
    evaluate (n + 1) (.this ref) m = .done v m := by
  have hrun : evaluate (n + 1) (.this ref) m = lookUp ref m := rfl
  have hget : Store.getAt m.env d ref.name.lexeme m.store = .done v m.store := by
    rw [Lexical.getAt_eq_get hf, hname]
    exact Lexical.get_of_slot hslot
  rw [hrun, lookUp_run, hr]
  exact Lexical.atToken_done hget

/-- **`this` and `super` are found where the text says.**  At every event of every accepted turn,
    whatever has happened in the session before: a bound method still has its instance, `this` is that
    of the method that runs, and `super` stands for what the superclass was when the class of the text
    was declared, bound to that same instance. -/
theorem super_dispatches_statically {interactive : Bool} {host : Host} {dealings : List Dealing} {t : Turn}
    (h : (Session.start interactive host).History dealings t.session) (ha : t.Accepted)
    {done rest : List Event} {e : Event} (hlog : t.opening.log = done ++ e :: rest) :
    Dispatch (t :: turnsOf dealings) (historyOf (turnsOf dealings) ++ done) e := by
  -- The moments of the log are those that the opening leads to, so the resolver's account of them holds.
  have hleads : ∀ {μ}, e = .comes μ → t.opening.Leads μ := fun heq =>
    Moment.leads_of_comes (hlog ▸ List.mem_append_right done (heq ▸ List.mem_cons_self))
  refine ⟨?_, ?_, ?_⟩
  · rintro n method v m bound m' ⟨⟩ hopens
    exact ⟨rfl, slot?_own h ha hlog (.inl rfl) hopens⟩
  · rintro n ref m rfl
    obtain ⟨hL, hpoised, -⟩ := Lexical.poised_of_history h ha (hleads rfl)
    obtain ⟨⟨⟨ctx, w, phrase⟩, ls⟩, frames, hphrase, haligned, hrecorded⟩ := hpoised.aligned hL rfl
    have hseen := haligned.seen
    obtain ⟨u, hu, hua, hvisited⟩ := haligned.seen
    cases hphrase
    have hsettled := hL.settled hseen
    obtain ⟨-, hname, howner⟩ := hsettled.this
    obtain ⟨d, opener, name, superclass, ds, depth, hin, hopener, hd, hdistance⟩ :=
      hsettled.inMethod hvisited.nested howner
    obtain ⟨method, id, c, f, hserves, -, hf, hslot, -⟩ := serves h ha hlog haligned hin
    have hr : m.resolution[ref.id]? = some (depth + 1) := by
      rw [hrecorded ref rfl, hname]
      exact hdistance
    exact ⟨_, d, name, superclass, ds, depth, method, _, rfl, ⟨hseen, ⟨opener, hin, hopener⟩, hd⟩, hserves,
      evaluate_this hr hname hf hslot⟩
  · rintro n ref method m rfl
    obtain ⟨hL, hpoised, -⟩ := Lexical.poised_of_history h ha (hleads rfl)
    obtain ⟨⟨⟨ctx, w, phrase⟩, ls⟩, frames, hphrase, haligned, hrecorded⟩ := hpoised.aligned hL rfl
    have hseen := haligned.seen
    obtain ⟨u, hu, hua, hvisited⟩ := haligned.seen
    cases hphrase
    have hsettled := hL.settled hseen
    obtain ⟨-, hname, howner⟩ := hsettled.super
    obtain ⟨d, opener, name, extended, ds, depth, hin, hopener, hd, hdistance, hdistance', hsuper⟩ :=
      hsettled.inSubclass hvisited.nested howner
    -- From the scopes of the text to the frames of the machine: who is being served, and from which class.
    obtain ⟨running, id, c, f, hserves, hrunning, hf, hslot, hrest⟩ := serves h ha hlog haligned hin
    obtain ⟨superclass, hcomes, hslot'⟩ :=
      comes_from h ha hlog haligned hsuper hopener hrunning (hrest 0)
    have hr : m.resolution[ref.id]? = some (depth + 1 + 1) := by
      rw [hrecorded ref rfl, hname]
      exact hdistance'
    have hf' : m.env.ancestor? (depth + 1 + 1) = some running.env.frame := hrest 0
    have hclass : Store.getAt m.env (depth + 1 + 1) ref.name.lexeme m.store =
        .done (.classOf superclass) m.store := by
      rw [Lexical.getAt_eq_get hf', hname]
      exact Lexical.get_of_slot hslot'
    have hfthis : m.env.ancestor? (depth + 1) = some f := hf
    have hthis : Store.getAt m.env (depth + 1) "this" m.store = .done (.object id c) m.store := by
      rw [Lexical.getAt_eq_get hfthis]
      exact Lexical.get_of_slot hslot
    refine ⟨_, d, name, extended, ds, depth, running, id, c, superclass, rfl,
      ⟨hseen, ⟨opener, hin, hopener⟩, hd⟩, hserves, hcomes, ?_, ?_⟩
    · intro k ref' hname' hrecorded'
      have hr' : m.resolution[ref'.id]? = some (depth + 1) := by
        rw [hrecorded', hname']
        exact hdistance
      exact evaluate_this hr' hname' hfthis hslot
    · have hrun : evaluate (n + 1) (.super ref method) m = superMethod ref method m := rfl
      rw [hrun, Lexical.superMethod_eq hr hclass hthis]
      cases superclass.method? method.lexeme <;> rfl

end Turns

/-! ## A superclass whose variable is assigned to -/

namespace Reassigned

/-- A class that extends another, the variable of which then holds something else. -/
def turn : Turn :=
  ⟨.start false ⟨[], #[], .whole, fun _ => 0, 0⟩, 7,
    "class A \x7b func m() \x7b\x7d \x7d class B < A \x7b func init() \x7b super.m; \x7d \x7d A = nil; B();"⟩

/-- A name in the first line. -/
def named (name : String) : Token := ⟨.identifier, name, 1⟩

/-- A function of the name, with the body. -/
def function (name : String) (body : List Stmt) : FunctionDecl :=
  .mk (some (named name)) ⟨.keyword .funcKw, "func", 1⟩ [] body

/-- The occurrence of `super`. -/
def superRef : Ref := ⟨1, ⟨.keyword .superKw, "super", 1⟩⟩

/-- The initializer, in which `super` stands. -/
def initializer : FunctionDecl := function "init" [.expression (.super superRef (named "m"))]

/-- The class that is extended. -/
def first : Class := ⟨⟨turn.machine.store.nextIdentity, "A", methodTable [function "m" []] .global⟩, []⟩

/-- The machine behind the first class. -/
def behindFirst : Machine :=
  { turn.machine with store :=
    { turn.machine.store.put 0 "A" (some (.classOf first)) with
      nextIdentity := turn.machine.store.nextIdentity + 1 } }

/-- What the methods of the other class see. -/
def around : Env := Env.global.extend (behindFirst.store.put 0 "B" none).frames.size

/-- The class that extends it. -/
def second : Class := ⟨⟨behindFirst.store.nextIdentity, "B", methodTable [initializer] around⟩, [first.own]⟩

/-- What is there when the second class comes about. -/
def founded : Store :=
  ⟨(behindFirst.store.put 0 "B" none).frames.push (Table.empty.insert "super" (some (.classOf first))),
    behindFirst.store.objects, behindFirst.store.nextIdentity + 1⟩

/-- The machine behind the second class. -/
def behindSecond : Machine :=
  { behindFirst with store := founded.put 0 "B" (some (.classOf second)) }

/-- The machine behind the assignment. -/
def behindAssignment : Machine :=
  { behindSecond with store := behindSecond.store.put 0 "A" (some .nil) }

/-- The program of the example is accepted. -/
theorem accepted : turn.Accepted := ⟨by cbv, by cbv⟩

/-- The program of the example. -/
theorem program_eq : turn.parsed.program =
    [.classDecl (named "A") none [function "m" []],
      .classDecl (named "B") (some ⟨0, named "A"⟩) [initializer],
      .expression (.assign ⟨3, named "A"⟩ (.literal .nil)),
      .expression (.call (.variable ⟨4, named "B"⟩) ⟨.mark .rightParen, ")", 1⟩ [])] := by
  cbv

/-- The first class is declared. -/
theorem first_declared :
    execute 7 (.classDecl (named "A") none [function "m" []]) turn.machine = .done .normal behindFirst := by
  rfl

/-- Its variable holds it. -/
theorem first_held : behindFirst.store.slot? 0 "A" = some (some (.classOf first)) := rfl

/-- The variable of the superclass is a global one. -/
theorem global_first : behindFirst.resolution[0]? = none := by
  show turn.machine.resolution[0]? = none
  cbv

theorem global_assigned : behindSecond.resolution[3]? = none := by
  show turn.machine.resolution[3]? = none
  cbv

theorem global_second : behindAssignment.resolution[4]? = none := by
  show turn.machine.resolution[4]? = none
  cbv

/-- The superclass is found. -/
theorem superclass_found : superclassOf ⟨0, named "A"⟩ behindFirst = .done first behindFirst := by
  have hrun : lookUp ⟨0, named "A"⟩ behindFirst = .done (.classOf first) behindFirst := by
    rw [lookUp_run, global_first]
    exact Lexical.atToken_done (Lexical.get_of_slot first_held)
  unfold superclassOf
  rw [Action.bind_of_done hrun]
  rfl

/-- The second class is declared, with the first as its superclass. -/
theorem second_declared :
    execute 7 (.classDecl (named "B") (some ⟨0, named "A"⟩) [initializer]) behindFirst =
      .done .normal behindSecond := by
  have hparent : (some <$> superclassOf ⟨0, named "A"⟩ : Eval _) behindFirst =
      .done (some first) behindFirst := by
    rw [map_eq_pure_bind, Action.bind_of_done superclass_found]
    rfl
  have hdeclare : declareClass (named "B") (some ⟨0, named "A"⟩) [initializer] behindFirst =
      .done () behindSecond := by
    unfold declareClass
    rw [Option.elim_some, Action.bind_of_done hparent]
    rfl
  have hrun : execute 7 (.classDecl (named "B") (some ⟨0, named "A"⟩) [initializer]) =
    (declareClass (named "B") (some ⟨0, named "A"⟩) [initializer] >>= fun _ => pure .normal) := rfl
  rw [hrun, Action.bind_of_done hdeclare]
  rfl

/-- How a variable is assigned to. -/
theorem evaluate_assign (ref : Ref) (m : Machine) : evaluate 6 (.assign ref (.literal .nil)) m =
    (assign ref .nil >>= fun _ => pure .nil : Eval Value) m :=
  rfl

theorem first_held_still : behindSecond.store.slot? 0 "A" = some (some (.classOf first)) := rfl

/-- Then another value is assigned to the variable of the first. -/
theorem assigned :
    execute 7 (.expression (.assign ⟨3, named "A"⟩ (.literal .nil))) behindSecond =
      .done .normal behindAssignment := by
  have hassign : assign ⟨3, named "A"⟩ .nil behindSecond = .done () behindAssignment := by
    rw [assign_run, global_assigned]
    show atToken (named "A") (Store.assign 0 "A" .nil) behindSecond = _
    rw [Lexical.atToken_assign, first_held_still]
    rfl
  have hvalue : evaluate 6 (.assign ⟨3, named "A"⟩ (.literal .nil)) behindSecond =
      .done .nil behindAssignment := by
    rw [evaluate_assign, Action.bind_of_done hassign]
    rfl
  have hrun : execute 7 (.expression (.assign ⟨3, named "A"⟩ (.literal .nil))) =
      (evaluate 6 (.assign ⟨3, named "A"⟩ (.literal .nil)) >>= fun _ => pure .normal) := rfl
  rw [hrun, Action.bind_of_done hvalue]
  rfl

theorem second_held : behindAssignment.store.slot? 0 "B" = some (some (.classOf second)) := rfl

theorem callee : evaluate 5 (.variable ⟨4, named "B"⟩) behindAssignment =
    .done (.classOf second) behindAssignment := by
  have hrun : evaluate 5 (.variable ⟨4, named "B"⟩) = lookUp ⟨4, named "B"⟩ := rfl
  rw [hrun, lookUp_run, global_second]
  exact Lexical.atToken_done (Lexical.get_of_slot second_held)

/-- The machine on which the initializer runs. -/
def running : Machine :=
  { behindAssignment with
    store := ⟨(behindAssignment.store.frames.push
        (Table.empty.insert "this" (some (.object behindAssignment.store.objects.size second)))).push .empty,
      behindAssignment.store.objects.push .empty, behindAssignment.store.nextIdentity⟩
    env := (around.extend behindAssignment.store.frames.size).extend (behindAssignment.store.frames.size + 1) }

/-- The evaluator comes to `super` in the initializer. -/
theorem leads : turn.opening.Leads ⟨1, .evaluate (.super superRef (named "m")), running⟩ := by
  have hprogram := program_eq
  unfold Turn.opening
  rw [hprogram]
  refine .head (.behindStatement nofun first_declared) (.head (.behindStatement nofun second_declared) ?_)
  refine .head (.behindStatement nofun assigned) (.head (.statement nofun) (.head .expression ?_))
  refine .head (.call callee rfl) (.head (.initializes rfl rfl rfl) (.head (.body rfl rfl) ?_))
  exact .head .firstStmt (.head .expression .refl)

end Reassigned

open Reassigned in
/-- In a method of a class that extends another, whose variable holds something else by then. -/
theorem super_dispatches_statically_reassigned :
    turn.Accepted ∧ ∃ done rest, turn.opening.log =
        done ++ .comes ⟨1, .evaluate (.super superRef (named "m")), running⟩ :: rest ∧
      running.store.slot? 0 "A" = some (some .nil) ∧
      Dispatch [turn] done (.comes ⟨1, .evaluate (.super superRef (named "m")), running⟩) := by
  have hcomes := (Moment.mem_logTo_of_leads (Nat.le_refl _) leads).1
  obtain ⟨done, rest, hlog⟩ := List.append_of_mem hcomes
  have hdispatch : Dispatch (turn :: turnsOf []) (historyOf (turnsOf []) ++ done) _ :=
    super_dispatches_statically .start accepted hlog
  exact ⟨accepted, done, rest, hlog, rfl, hdispatch⟩

end Lox
