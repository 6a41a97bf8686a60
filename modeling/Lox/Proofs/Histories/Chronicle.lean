import Mathlib.Data.List.Induction
import Lox.Proofs.Histories.Events

/-!
  Chronicles: events that fit in with those before them.

  A chronicle is a list of events, the earliest first.  The store on which an event takes place is what
  the events before it make of the initial store (`replay`), whatever has an identity came to be in an
  event before, and so did the frames that are seen (`Event.Grounded`).

  What a chronicle says about the present is read off the past.  A thing with an identity came to be
  once (`Chronicle.once`), so did a frame (`Chronicle.opens_once`).  A field has the value that was
  stored last (`Chronicle.field?_eq`).  A name that is never written keeps the slot that its frame was
  opened with (`Chronicle.slot?_kept`).

  All of these are inductions on the chronicle, over the deeds there are: a frame is opened, a slot is
  written, something is made, a field is stored.  The proofs have one shape.  The last event is looked at, what
  it does to the store is computed (`Deed.effect`), and what was said of the store before carries over, as
  numbers are never taken back (`next_le`) and a number that is given out is greater than all before
  (`mark_lt`).

  Of what has been made it is also said what it was made of (`Value.Grounded`): a function of the frames that
  it sees, an instance of its class, a class of its statement and its superclass.  Since each of these has been
  known before, a class stands on its chain in front of classes that are older than itself (`chain_known`).
-/

namespace Lox

/-! ## Replaying -/

/-- What the deed does to the store. -/
def Deed.effect : Deed → Store → Store
  | .reads _ _, s => s
  | .opens parent frame, s => (s.push parent frame).2
  | .writes frame name slot, s => s.put frame name slot
  | .makes (.object _ _), s => s.newObject.2
  | .makes _, s => s.newIdentity.2
  | .stores object name value, s => s.putField object name value

/-- What the event does to the store. -/
def Event.effect : Event → Store → Store
  | .comes _, s => s
  | .does _ _ deed, s => deed.effect s

/-- What the events make of the initial store. -/
def replay (h : List Event) : Store := h.foldl (fun s e => e.effect s) .initial

/-- The last event is the last to change the store. -/
theorem replay_concat (h : List Event) (e : Event) : replay (h ++ [e]) = e.effect (replay h) := by
  simp [replay]

/-! ## What is known

  At an event only such values are used as an earlier event has made; constants and native functions are always
  known. -/

/-- If the value has an identity, it came to be in one of the events. -/
def Value.Known (h : List Event) : Value → Prop
  | v@(.function _ _) | v@(.classOf _) | v@(.object _ _) => ∃ μ m, .does μ m (.makes v) ∈ h
  | _ => True

/-- The frames of the chain were made in some of the events, each inside the next. -/
inductive Env.Known (h : List Event) : Env → Prop where
  | global : Known h .global
  | extend {parent : Env} {μ : Moment} {m : Machine} {frame : Table (Option Value)} : Known h parent →
    .does μ m (.opens parent frame) ∈ h → Known h (parent.extend m.store.frames.size)

/-- The values of the slots are known. -/
def Table.Known (h : List Event) (frame : Table (Option Value)) : Prop :=
  ∀ x v, frame.get? x = some (some v) → v.Known h

/-- The closure is a method of a class that is known. -/
def Closure.IsMethod (h : List Event) (method : Closure) : Prop :=
  ∃ c name, Value.Known h (.classOf c) ∧ c.method? name = some method

/-- What the evaluator is about to do concerns known values only. -/
def Activity.Known (h : List Event) : Activity → Prop
  | .call v _ given => v.Known h ∧ ∀ a ∈ given, a.Known h
  | .callClosure c given => c.env.Known h ∧ ∀ a ∈ given, a.Known h
  | .program _ last => ∀ v ∈ last, v.Known h
  | .assign _ v => v.Known h
  | .bind method this => method.IsMethod h ∧ ∃ id c, this = .object id c ∧ this.Known h
  | _ => True

/-- What the class that a class extends is found to be, if it extends one. -/
def Machine.parentOf (superclass : Option Ref) : Eval (Option Class) :=
  superclass.elim (pure none) fun ref => some <$> superclassOf ref

/-- The class has come about as its statement says: with the methods of its text, and with the chain of
    the class that the superclass was found to be.  If there is one, a frame lies around the methods
    in which `super` is that class; else they see what the statement sees. -/
structure Class.Grounded (h : List Event) (μ : Moment) (c : Class) (parent : Option Class)
    (around : Env) : Prop where
  stated : ∃ n name superclass methods m m', μ = ⟨n, .execute (.classDecl name superclass methods), m⟩ ∧
    Machine.parentOf superclass m = .done parent m' ∧ c.own.name = name.lexeme ∧
    c.own.methods = Machine.methodTable methods around
  come : .comes μ ∈ h
  seen : around.Known h
  chain : c.ancestors = parent.elim [] Class.chain
  plain : parent = none → around = μ.machine.env
  super : ∀ p ∈ parent, Value.Known h (.classOf p) ∧ ∃ m env, around = env.extend m.store.frames.size ∧
    .does μ m (.opens env (Table.empty.insert "super" (some (.classOf p)))) ∈ h

/-- What numbers are given out to: frames, instances, and functions and classes. -/
inductive Supply where
  | frames | objects | identities

/-- The number that is given out next. -/
def Store.next (s : Store) : Supply → Nat
  | .frames => s.frames.size
  | .objects => s.objects.size
  | .identities => s.nextIdentity

/-- The identity of a value: the supply that it is from, and its number. -/
def Value.mark : Value → Option (Supply × Nat)
  | .function id _ => some (.identities, id)
  | .classOf c => some (.identities, c.own.identity)
  | .object id _ => some (.objects, id)
  | _ => none

/-- The number that is given out in the event. -/
def Event.mark : Event → Option (Supply × Nat)
  | .does _ m (.opens _ _) => some (.frames, m.store.frames.size)
  | .does _ _ (.makes v) => v.mark
  | _ => none

/-- What comes to be is made of what is known. -/
def Value.Grounded (h : List Event) (μ : Moment) : Value → Prop
  | .function _ closure => closure.env.Known h
  | .classOf c => ∃ parent around, Class.Grounded h μ c parent around
  | .object _ c => Known h (.classOf c)
  | _ => False

/-- The deed concerns known things only. -/
def Deed.Grounded (h : List Event) (μ : Moment) (m : Machine) : Deed → Prop
  | .reads v _ => v.Known h
  | .opens parent frame => parent.Known h ∧ frame.Known h
  | .writes _ _ slot => ∀ v ∈ slot, v.Known h
  | .makes v => v.Grounded h μ ∧
    ∀ supply number, v.mark = some (supply, number) → number = m.store.next supply
  | .stores object _ v => v.Known h ∧ ∃ c, Value.Known h (.object object c)

/-- The event fits in with those before it. -/
structure Event.Grounded (h : List Event) (e : Event) : Prop where
  store : e.machine.store = replay h
  env : e.machine.env.Known h
  matter : match e with
    | .comes μ => μ.activity.Known h
    | .does μ m deed => deed.Grounded h μ m

/-- Each of the events fits in with those before it. -/
inductive Chronicle : List Event → Prop where
  | start : Chronicle []
  | event {h : List Event} {e : Event} : Chronicle h → e.Grounded h → Chronicle (h ++ [e])

section Mono

variable {h h' : List Event} (hsub : h ⊆ h')
include hsub

/-- What has come to be once has come to be. -/
theorem Value.Known.mono {v : Value} (hv : v.Known h) : v.Known h' := by
  cases v with
  | function _ _ | classOf _ | object _ _ =>
    obtain ⟨μ, m, hmem⟩ := hv
    exact ⟨μ, m, hsub hmem⟩
  | _ => trivial

/-- A frame that has been opened once has been opened. -/
theorem Env.Known.mono {env : Env} (hv : env.Known h) : env.Known h' := by
  induction hv with
  | global => exact .global
  | extend _ hmem ih => exact .extend ih (hsub hmem)

/-- A class stays what it was when it came to be. -/
theorem Class.Grounded.mono {μ : Moment} {c : Class} {parent : Option Class} {around : Env}
    (hc : Class.Grounded h μ c parent around) : Class.Grounded h' μ c parent around := by
  refine ⟨hc.stated, hsub hc.come, hc.seen.mono hsub, hc.chain, hc.plain, fun p hp => ?_⟩
  obtain ⟨hknown, m, env, haround, hopens⟩ := hc.super p hp
  exact ⟨hknown.mono hsub, m, env, haround, hsub hopens⟩

/-- A method of a known class stays one. -/
theorem Closure.IsMethod.mono {c : Closure} (hc : c.IsMethod h) : c.IsMethod h' := by
  obtain ⟨k, name, hk, hm⟩ := hc
  exact ⟨k, name, hk.mono hsub, hm⟩

end Mono

/-! ## What the store shows

  The store is that of the events so far (`replay`), so each of its slots and fields goes back to one of them. -/

namespace Store

variable (s : Store)

/-- A new instance has no fields, and the others keep theirs. -/
theorem field?_newObject (o : Nat) (x : String) : s.newObject.2.field? o x = s.field? o x := by
  simp only [newObject, field?, Array.getElem?_push]
  split
  · rename_i ho
    subst ho
    simp
  · rfl

/-- A write to one name changes no slot of another. -/
theorem slot?_put_of_ne {x y : String} (hxy : x ≠ y) (f g : Nat) (slot : Option Value) :
    (s.put f x slot).slot? g y = s.slot? g y := by
  simp only [put, slot?, Array.getElem?_modify]
  split
  · cases s.frames[g]? with
    | none => rfl
    | some frame => exact Table.get?_insert_of_ne frame slot hxy
  · rfl

/-- A slot that is seen after a change was seen before, or is the new one. -/
theorem slot?_put_cases {f g : Nat} {x y : String} {slot found : Option Value}
    (hs : (s.put f x slot).slot? g y = some found) :
    (f = g ∧ x = y ∧ found = slot) ∨ s.slot? g y = some found := by
  by_cases hf : f < s.frames.size
  · rw [slot?_put s hf] at hs
    split at hs
    · rename_i hgy
      cases hs
      exact .inl ⟨hgy.1, hgy.2, rfl⟩
    · exact .inr hs
  · -- Where there is no frame nothing is changed.
    have hput : (s.put f x slot).frames = s.frames := by
      apply Array.ext_getElem?
      intro i
      rw [put, Array.getElem?_modify]
      split
      · rename_i hi
        subst hi
        simp [Array.getElem?_eq_none (Nat.le_of_not_lt hf)]
      · rfl
    rw [slot?, hput] at hs
    exact .inr hs

/-- At first there are the native functions only. -/
theorem native_of_initial {f : Nat} {x : String} {v : Value}
    (hs : Store.initial.slot? f x = some (some v)) : ∃ n, v = .native n := by
  have hstart : ∀ {slot}, Store.start.slot? f x = some slot → False := by
    intro slot h
    simp only [start, slot?] at h
    cases f with
    | zero => cases h
    | succ f => cases h
  rcases slot?_put_cases _ hs with ⟨-, -, hv⟩ | hs
  · cases hv
    exact ⟨_, rfl⟩
  rcases slot?_put_cases _ hs with ⟨-, -, hv⟩ | hs
  · cases hv
    exact ⟨_, rfl⟩
  rcases slot?_put_cases _ hs with ⟨-, -, hv⟩ | hs
  · cases hv
    exact ⟨_, rfl⟩
  exact (hstart hs).elim

end Store

/-- Of the methods that a class text gives one name the last is found. -/
theorem Machine.methodTable_get? {ρ : Type} (methods : List FunctionDecl) (env : ρ) (name : String) :
    (methodTable methods env).get? name =
      (methods.reverse.find? (·.displayName = name)).map fun d => ⟨d, env, d.isInitializer⟩ := by
  induction methods using List.reverseRecOn with
  | nil => rfl
  | append_singleton methods d ih =>
    have hconcat : methodTable (methods ++ [d]) env =
        (methodTable methods env).insert d.displayName ⟨d, env, d.isInitializer⟩ := by
      simp [methodTable]
    rw [hconcat, Table.get?_insert, ih, List.reverse_append, List.reverse_singleton,
      List.singleton_append, List.find?_cons]
    by_cases hd : d.displayName = name <;> simp [hd]

namespace Chronicle

variable {h : List Event}

/-- An event of a chronicle fits in with those before it. -/
theorem grounded (hc : Chronicle h) {before after : List Event} {e : Event}
    (heq : h = before ++ e :: after) : Chronicle before ∧ e.Grounded before := by
  induction hc generalizing after with
  | start => simp at heq
  | @event h e' hc he ih =>
    rcases List.eq_nil_or_concat after with rfl | ⟨after, e'', rfl⟩
    · obtain ⟨hbefore, hlast⟩ := List.append_inj' heq rfl
      cases hbefore
      cases hlast
      exact ⟨hc, he⟩
    · have hsplit : h ++ [e'] = (before ++ e :: after) ++ [e''] := by simpa using heq
      exact ih (List.append_inj' hsplit rfl).1

/-! ## Values that are kept -/

/-- What a variable holds is known. -/
theorem slot_known (hc : Chronicle h) {f : Nat} {x : String} {v : Value}
    (hs : (replay h).slot? f x = some (some v)) : v.Known h := by
  induction hc with
  | start =>
    obtain ⟨n, rfl⟩ := Store.native_of_initial hs
    trivial
  | @event h e hc he ih =>
    have hsub : h ⊆ h ++ [e] := List.subset_append_left h [e]
    rw [replay_concat] at hs
    -- A slot changes where a frame is opened or a name is written; the value was known then.
    cases e with
    | comes μ => exact (ih hs).mono hsub
    | does μ m deed =>
      cases deed with
      | reads v' name => exact (ih hs).mono hsub
      | opens parent frame =>
        rw [Event.effect, Deed.effect, Store.slot?_push] at hs
        split at hs
        · exact (he.matter.2 _ _ hs).mono hsub
        · exact (ih hs).mono hsub
      | writes f' x' slot =>
        rcases Store.slot?_put_cases _ hs with ⟨-, -, hv⟩ | hs
        · exact (he.matter v hv.symm).mono hsub
        · exact (ih hs).mono hsub
      | makes v' => cases v' <;> exact (ih hs).mono hsub
      | stores o x' v' => exact (ih hs).mono hsub

/-! ## Numbers

  Frames, identities and instances are numbered apart, and each event takes the next number of its supply. -/

/-- Numbers are not taken back. -/
theorem next_le (e : Event) (s : Store) (supply : Supply) : s.next supply ≤ (e.effect s).next supply := by
  cases e with
  | comes μ => exact Nat.le_refl _
  | does μ m deed =>
    cases supply <;> cases deed with
    | makes v =>
      cases v <;> simp [Event.effect, Deed.effect, Store.newIdentity, Store.newObject, Store.next]
    | _ => simp [Event.effect, Deed.effect, Store.push, Store.put, Store.putField, Store.next]

/-- A number that is given out is the next one, and is then used up. -/
theorem next_lt {e : Event} {supply : Supply} {number : Nat} (he : e.Grounded h)
    (hmark : e.mark = some (supply, number)) :
    number = (replay h).next supply ∧ number < (replay (h ++ [e])).next supply := by
  have hnext : number = (replay h).next supply := by
    rw [← he.store]
    cases e with
    | comes μ => cases hmark
    | does μ m deed =>
      cases deed with
      | opens parent frame =>
        cases hmark
        rfl
      | makes v => exact he.matter.2 supply number hmark
      | _ => cases hmark
  -- Whatever takes a number moves its supply on by one.
  refine ⟨hnext, hnext ▸ ?_⟩
  rw [replay_concat]
  cases e with
  | comes μ => cases hmark
  | does μ m deed =>
    cases deed with
    | opens parent frame =>
      cases hmark
      simp [Event.effect, Deed.effect, Store.push, Store.next]
    | makes v =>
      cases v with
      | function _ _ | classOf _ | object _ _ =>
        cases hmark
        simp [Event.effect, Deed.effect, Store.newIdentity, Store.newObject, Store.next]
      | _ => cases hmark
    | _ => cases hmark

/-- All numbers that have been given out are used up. -/
theorem mark_lt (hc : Chronicle h) {e : Event} {supply : Supply} {number : Nat} (he : e ∈ h)
    (hmark : e.mark = some (supply, number)) : number < (replay h).next supply := by
  induction hc with
  | start => cases he
  | @event h e' hc he' ih =>
    rcases List.mem_append.mp he with hold | hnew
    · rw [replay_concat]
      exact Nat.lt_of_lt_of_le (ih hold) (next_le e' _ supply)
    · cases List.mem_singleton.mp hnew
      exact (next_lt he' hmark).2

/-- **No number is given out twice**: whatever has an identity came to be once, and so did each
    frame. -/
theorem once (hc : Chronicle h) {e e' : Event} (he : e ∈ h) (he' : e' ∈ h) (hsome : e.mark ≠ none)
    (heq : e.mark = e'.mark) : e = e' := by
  obtain ⟨⟨supply, number⟩, hmark⟩ := Option.ne_none_iff_exists'.mp hsome
  have hmark' : e'.mark = some (supply, number) := heq ▸ hmark
  induction hc with
  | start => cases he
  | @event h last hc hlast ih =>
    -- The number that the last event gives out is greater than all before.
    rcases List.mem_append.mp he with hold | hnew <;> rcases List.mem_append.mp he' with hold' | hnew'
    · exact ih hold hold'
    · cases List.mem_singleton.mp hnew'
      have hlt := hc.mark_lt hold hmark
      exact absurd ((next_lt hlast hmark').1 ▸ hlt) (Nat.lt_irrefl _)
    · cases List.mem_singleton.mp hnew
      have hlt := hc.mark_lt hold' hmark'
      exact absurd ((next_lt hlast hmark).1 ▸ hlt) (Nat.lt_irrefl _)
    · exact (List.mem_singleton.mp hnew).trans (List.mem_singleton.mp hnew').symm

end Chronicle

/-- Values that are the same have one identity. -/
theorem Value.mark_of_same {v v' : Value} (hv : v.mark ≠ none) (hsame : v.same v' = true) :
    v.mark = v'.mark := by
  cases v with
  | function id closure =>
    cases v' with
    | function id' closure' => simpa [same, mark] using hsame
    | _ => cases hsame
  | classOf c =>
    cases v' with
    | classOf c' => simpa [same, mark] using hsame
    | _ => cases hsame
  | object id c =>
    cases v' with
    | object id' c' => simpa [same, mark] using hsame
    | _ => cases hsame
  | _ => exact absurd rfl hv

namespace Chronicle

/-- **What is the same is equal**: an instance is of one class for ever, and a class has one chain for
    ever. -/
theorem eq_of_same (hc : Chronicle h) {v v' : Value} (hv : v.Known h) (hv' : v'.Known h)
    (hsome : v.mark ≠ none) (hsame : v.same v' = true) : v = v' := by
  have hmark := Value.mark_of_same hsome hsame
  have hmade : ∀ {w : Value}, w.Known h → w.mark ≠ none → ∃ μ m, .does μ m (.makes w) ∈ h := by
    intro w hw hne
    cases w with
    | function _ _ | classOf _ | object _ _ => exact hw
    | _ => exact absurd rfl hne
  obtain ⟨μ, m, hmem⟩ := hmade hv hsome
  obtain ⟨μ', m', hmem'⟩ := hmade hv' (hmark ▸ hsome)
  have heq := hc.once hmem hmem' hsome hmark
  cases heq
  rfl

/-! ## Slots and fields

  A slot that no event writes is as it was when its frame was opened; a field holds what was stored last. -/

/-- A name that is never written keeps the slot with which its frame was opened. -/
theorem slot?_kept (hc : Chronicle h) {μ : Moment} {m : Machine} {parent : Env}
    {frame : Table (Option Value)} (hopens : .does μ m (.opens parent frame) ∈ h) {x : String}
    (hwrites : ∀ μ' m' f slot, .does μ' m' (.writes f x slot) ∉ h) :
    (replay h).slot? m.store.frames.size x = frame.get? x := by
  induction hc with
  | start => cases hopens
  | @event h e hc he ih =>
    have hbefore : ∀ μ' m' f slot, .does μ' m' (.writes f x slot) ∉ h := fun μ' m' f slot hmem =>
      hwrites μ' m' f slot (List.mem_append_left [e] hmem)
    rw [replay_concat]
    -- The frame is opened by an earlier event, and this one leaves the slot alone; or it is opened by this
    -- event.
    rcases List.mem_append.mp hopens with hold | hnew
    · have hslot := ih hold hbefore
      cases e with
      | comes μ' => exact hslot
      | does μ' m' deed =>
        cases deed with
        | reads v name => exact hslot
        | opens parent' frame' =>
          have hlt : m.store.frames.size < (replay h).frames.size := hc.mark_lt hold rfl
          rw [Event.effect, Deed.effect, Store.slot?_push, if_neg (Nat.ne_of_lt hlt)]
          exact hslot
        | writes f y slot =>
          have hne : y ≠ x := by
            rintro rfl
            exact hwrites μ' m' f slot (List.mem_append_right h (List.mem_singleton_self _))
          exact (Store.slot?_put_of_ne _ hne _ _ _).trans hslot
        | makes v => cases v <;> exact hslot
        | stores o y v => exact hslot
    · cases List.mem_singleton.mp hnew
      have hstore : m.store = replay h := he.store
      rw [Event.effect, Deed.effect, Store.slot?_push, if_pos (by rw [hstore])]

end Chronicle

/-- The value that the event stores to the field, if it does so. -/
def Event.stored (object : Nat) (name : String) : Event → Option Value
  | .does _ _ (.stores object' name' v) => if object' = object ∧ name' = name then some v else none
  | _ => none

/-- The value that was stored to the field last. -/
def lastStored (h : List Event) (object : Nat) (name : String) : Option Value :=
  (h.filterMap (Event.stored object name)).getLast?

/-- The last event has stored the field, or what was stored before is the last. -/
theorem lastStored_concat (h : List Event) (e : Event) (object : Nat) (name : String) :
    lastStored (h ++ [e]) object name = (e.stored object name).or (lastStored h object name) := by
  simp only [lastStored, List.filterMap_append, List.getLast?_append]
  cases hs : e.stored object name <;> simp [hs]

namespace Chronicle

/-- **A field has the value that was stored to it last.** -/
theorem field?_eq (hc : Chronicle h) (object : Nat) (name : String) :
    (replay h).field? object name = lastStored h object name := by
  induction hc with
  | start => cases object <;> rfl
  | @event h e hc he ih =>
    rw [replay_concat, lastStored_concat]
    cases e with
    | comes μ => exact ih
    | does μ m deed =>
      cases deed with
      | makes v =>
        cases v with
        | object id c => exact (Store.field?_newObject _ _ _).trans ih
        | _ => exact ih
      | stores object' name' v =>
        -- The instance is known, so its number is in use and the field is really stored.
        obtain ⟨-, c, hknown⟩ := he.matter
        obtain ⟨μ', m', hmem⟩ := hknown
        have hlt : object' < (replay h).objects.size := hc.mark_lt hmem rfl
        rw [Event.effect, Deed.effect, Store.field?_putField _ hlt, ih, Event.stored]
        split <;> rfl
      | _ => exact ih

/-- What a field holds is known. -/
theorem field_known (hc : Chronicle h) {object : Nat} {name : String} {v : Value}
    (hv : (replay h).field? object name = some v) : v.Known h := by
  rw [hc.field?_eq] at hv
  induction hc with
  | start => cases hv
  | @event h e hc he ih =>
    have hsub : h ⊆ h ++ [e] := List.subset_append_left h [e]
    rw [lastStored_concat] at hv
    -- The last store of the field is this event, or one before.
    cases hs : e.stored object name with
    | none =>
      rw [hs] at hv
      exact (ih hv).mono hsub
    | some w =>
      rw [hs] at hv
      cases hv
      cases e with
      | comes μ => cases hs
      | does μ m deed =>
        cases deed with
        | stores object' name' w' =>
          simp only [Event.stored, Option.ite_none_right_eq_some] at hs
          cases hs.2
          exact he.matter.1.mono hsub
        | _ => cases hs

/-! ## Classes -/

/-- What stands on the chain of a class is itself a class that is known, with the rest of the chain. -/
theorem chain_known (hc : Chronicle h) {c : Class} (hk : Value.Known h (.classOf c))
    {nearer farther : List ClassBody} {body : ClassBody} (hchain : c.chain = nearer ++ body :: farther) :
    Value.Known h (.classOf ⟨body, farther⟩) := by
  induction hc generalizing c nearer with
  | start =>
    obtain ⟨μ, m, hmem⟩ := hk
    cases hmem
  | @event h e hc he ih =>
    have hsub : h ⊆ h ++ [e] := List.subset_append_left h [e]
    obtain ⟨μ, m, hmem⟩ := hk
    rcases List.mem_append.mp hmem with hold | hnew
    · exact (ih ⟨μ, m, hold⟩ hchain).mono hsub
    · cases List.mem_singleton.mp hnew
      obtain ⟨parent, around, hclass⟩ := he.matter.1
      cases nearer with
      | nil =>
        cases hchain
        exact ⟨μ, m, hmem⟩
      | cons b nearer =>
        -- Behind the class itself the chain is that of its parent, which was known before.
        have htail : c.ancestors = nearer ++ body :: farther := (List.cons.inj hchain).2
        rw [hclass.chain] at htail
        cases parent with
        | none => simp at htail
        | some p => exact (ih (hclass.super p rfl).1 htail).mono hsub

/-- A class that is known has come about as its statement says. -/
theorem class_grounded (hc : Chronicle h) {c : Class} (hk : Value.Known h (.classOf c)) :
    ∃ μ parent around, Class.Grounded h μ c parent around := by
  obtain ⟨μ, m, hmem⟩ := hk
  obtain ⟨before, after, rfl⟩ := List.append_of_mem hmem
  obtain ⟨parent, around, hclass⟩ := (hc.grounded rfl).2.matter.1
  exact ⟨μ, parent, around, hclass.mono (List.subset_append_left _ _)⟩

/-- A method of a class that is known is one of the text of a class on its chain, and sees what lies
    around the methods of that class. -/
theorem method_grounded (hc : Chronicle h) {method : Closure} (hm : method.IsMethod h) :
    ∃ c μ parent around d, Value.Known h (.classOf c) ∧ Class.Grounded h μ c parent around ∧
      (∃ n name superclass methods m, μ = ⟨n, .execute (.classDecl name superclass methods), m⟩ ∧
        d ∈ methods) ∧ method = ⟨d, around, d.isInitializer⟩ := by
  obtain ⟨c, name, hk, hfound⟩ := hm
  -- The method has been found on one class of the chain, which is a known class by itself.
  obtain ⟨body, hbody, hget⟩ := List.exists_of_findSome?_eq_some hfound
  obtain ⟨nearer, farther, hchain⟩ := List.append_of_mem hbody
  have hk' := hc.chain_known hk hchain
  obtain ⟨μ, parent, around, hclass⟩ := hc.class_grounded hk'
  obtain ⟨n, token, superclass, methods, m, m', hμ, hparent, hname, hmethods⟩ := hclass.stated
  have hmethods' : body.methods = Machine.methodTable methods around := hmethods
  rw [hmethods', Machine.methodTable_get?, Option.map_eq_some_iff] at hget
  obtain ⟨d, hfind, hmethod⟩ := hget
  have hd : d ∈ methods := List.mem_reverse.mp (List.mem_of_find?_eq_some hfind)
  exact ⟨_, μ, parent, around, d, hk', hclass, ⟨n, token, superclass, methods, m, hμ, hd⟩, hmethod.symm⟩

end Chronicle

end Lox
