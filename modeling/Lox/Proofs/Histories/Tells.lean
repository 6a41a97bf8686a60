import Lox.Proofs.Histories.Chronicle
import Lox.Proofs.Lexical.Names

/-!
  Runs write chronicles.

  A machine is reached by a chronicle if its store is what the chronicle makes of the initial one.  From
  there on every run continues the chronicle with its log, and whatever it gives is then known
  (`tells`).

  `Tells k h l r Q` speaks of an action that begins where the chronicle `h` ends, with the log `l`, opened to
  the depth `k`, and the ending `r`.  It says that `h` and the log together are a chronicle, that the machine
  in the ending has been reached by it, and `Q` of the answer.  The rules are those of a logic for programs:
  `Tells.bind` for sequences, `Tells.within` for a change of the current frames, `Tells.opens` for a moment with
  all that happens at it.  What is told of an action is known in what comes behind it, since what is known stays
  known when the chronicle goes on (`mono`).

  The proof that every run tells its log goes in the order of the evaluator:

  1. the steps on the store, each of which is one deed or none;
  2. the steps that fetch methods and make classes, in which deeds and moments alternate;
  3. by induction on the depth, all forms of expressions and statements.

  In each case the log has been given in the order of the evaluator's own sequence, so the case is this sequence
  once more, and what remains to be shown are the grounds of its deeds: that the values they use are known.
-/

namespace Lox

open Machine Eval

/-! ## What the steps of the evaluator do on a machine

  `Tells k h es x Q`: behind the history `h`, an action that is logged as `es` leaves the machine whose store
  those events make. -/

namespace Machine

variable (m : Machine)

/-- To look up a variable, on a machine. -/
theorem lookUp_run (ref : Ref) : lookUp ref m =
    (match m.resolution[ref.id]? with
      | some distance => atToken ref.name (Store.getAt m.env distance ref.name.lexeme)
      | none => atToken ref.name (Store.get Env.global.frame ref.name.lexeme)) m :=
  rfl

/-- To assign to a variable, on a machine. -/
theorem assign_run (ref : Ref) (v : Value) : assign ref v m =
    (match m.resolution[ref.id]? with
      | some distance => atToken ref.name (Store.assignAt m.env distance ref.name.lexeme v)
      | none => atToken ref.name (Store.assign Env.global.frame ref.name.lexeme v)) m :=
  rfl

/-- To read a property of an instance, on a machine. -/
theorem getProperty_run (id : Nat) (c : Class) (name : Token) : getProperty (.object id c) name m =
    (match m.store.field? id name.lexeme with
      | some field => pure field
      | none =>
        match c.method? name.lexeme with
        | none => failAt name .undefinedProperty
        | some method =>
          if name.lexeme = "init" then failAt name .directInitializer
          else do functionValue (← bindThis method (.object id c)) : Eval Value) m :=
  rfl

/-- To read a method by `super`, on a machine. -/
theorem superMethod_run (ref : Ref) (method : Token) : superMethod ref method m =
    (match m.resolution[ref.id]? with
      | none => failAt ref.name .superOutsideClass
      | some distance => do
        match ← atToken ref.name (Store.getAt m.env distance ref.name.lexeme) with
        | .classOf superclass =>
          match ← atToken (Token.named "this" ref.name.line) (Store.getAt m.env (distance - 1) "this") with
          | .object identity c =>
            match superclass.method? method.lexeme with
            | some found => functionValue (← bindThis found (.object identity c))
            | none => failAt method .undefinedProperty
          | _ => failAt ref.name .thisNotInstance
        | _ => failAt ref.name .superclassNotClass : Eval Value) m :=
  rfl

/-- To call a native function, on a machine. -/
theorem callNative_run (token : Token) (native : Native) (given : List Value) :
    callNative token native given m =
      match nativeAnswer given m.host native with
      | (.ok value, host) => .done value { m with host := host }
      | (.error fault, host) => .failed ⟨token, fault⟩ { m with host := host } :=
  rfl

end Machine

/-- The events, with the moments among them opened to a depth. -/
def opened (k : Nat) (l : List Event) : List Event :=
  l.flatMap fun
    | .comes ν => ν.logTo k
    | e => [e]

/-- Events are opened one by one. -/
theorem opened_append (k : Nat) (l l' : List Event) : opened k (l ++ l') = opened k l ++ opened k l' :=
  List.flatMap_append

/-- A moment is opened by opening what happens at it. -/
theorem opened_comes (k : Nat) (μ : Moment) : opened (k + 1) [.comes μ] = .comes μ :: opened k μ.inside := by
  -- The two functions are the same, but have been compiled apart.
  have hsame : ∀ l : List Event, l.flatMap (fun | .comes ν => ν.logTo k | e => [e]) = opened k l :=
    fun l => congrArg (List.flatMap · l) (by funext e; cases e <;> rfl)
  calc opened (k + 1) [.comes μ] = μ.logTo (k + 1) ++ [] := rfl
    _ = μ.logTo (k + 1) := List.append_nil _
    _ = .comes μ :: opened k μ.inside := by
        rw [Moment.logTo]
        exact congrArg (List.cons (.comes μ)) (hsame μ.inside)

/-- The machine has been reached in these events. -/
structure Reached (h : List Event) (m : Machine) : Prop where
  chronicle : Chronicle h
  store : m.store = replay h
  env : m.env.Known h

/-- The log continues the chronicle up to the end of the action, whose answer is as it should be. -/
def Tells {α : Type} (k : Nat) (h l : List Event) (r : Ending Machine RuntimeError α)
    (Q : List Event → α → Prop) : Prop :=
  Chronicle (h ++ opened k l) ∧ match r with
    | .done a m => Reached (h ++ opened k l) m ∧ Q (h ++ opened k l) a
    | .failed _ m => m.store = replay (h ++ opened k l)
    | .exhausted => True

namespace Tells

variable {α β : Type} {k : Nat} {h l : List Event} {m m' : Machine} {μ : Moment}
  {Q : List Event → α → Prop} {Q' : List Event → β → Prop}

/-- An action that has been done, without a log. -/
theorem done (hr : Reached h m) {a : α} (hq : Q h a) : Tells k h [] (.done a m) Q := by
  have hnil : h ++ opened k [] = h := List.append_nil h
  unfold Tells
  rw [hnil]
  exact ⟨hr.chronicle, hr, hq⟩

/-- An action that has failed, without a log. -/
theorem failed (hr : Reached h m) (e : RuntimeError) : Tells k h [] (.failed e m) Q := by
  have hnil : h ++ opened k [] = h := List.append_nil h
  unfold Tells
  rw [hnil]
  exact ⟨hr.chronicle, hr.store⟩

/-- Nothing is told of an action without fuel but that the chronicle is one. -/
theorem exhausted (hr : Reached h m) : Tells k h [] .exhausted Q := by
  have hnil : h ++ opened k [] = h := List.append_nil h
  unfold Tells
  rw [hnil]
  exact ⟨hr.chronicle, trivial⟩

/-- One action after the other. -/
theorem bind_run {x : Eval α} {f : α → Eval β} {l' : α → Machine → List Event}
    (hx : Tells k h l (x m) Q) (hf : ∀ h' a m', x m = .done a m' → h ⊆ h' → Reached h' m' → Q h' a →
      Tells k h' (l' a m') (f a m') Q') :
    Tells k h (l ++ (x m).after l') ((x >>= f) m) Q' := by
  unfold Tells at hx ⊢
  cases hrun : x m with
  | done a m' =>
    rw [hrun] at hx
    obtain ⟨hc, hr, hq⟩ := hx
    have hnext := hf _ a m' hrun (List.subset_append_left _ _) hr hq
    unfold Tells at hnext
    rw [Action.bind_of_done hrun, Moment.after_done, opened_append, ← List.append_assoc]
    exact hnext
  | failed e m' =>
    rw [hrun] at hx
    rw [Action.bind_of_failed hrun, Ending.after, List.append_nil]
    exact hx
  | exhausted =>
    rw [hrun] at hx
    rw [Action.bind_of_exhausted hrun, Ending.after, List.append_nil]
    exact ⟨hx.1, trivial⟩

/-- One action after the other, whatever the first was. -/
theorem bind {x : Eval α} {f : α → Eval β} {l' : α → Machine → List Event} (hx : Tells k h l (x m) Q)
    (hf : ∀ h' a m', h ⊆ h' → Reached h' m' → Q h' a → Tells k h' (l' a m') (f a m') Q') :
    Tells k h (l ++ (x m).after l') ((x >>= f) m) Q' :=
  hx.bind_run fun h' a m' _ => hf h' a m'

/-- An action that begins with a single event, and another. -/
theorem first {e : Event} {x : Eval α} {f : α → Eval β} {l' : α → Machine → List Event}
    (hx : Tells k h [e] (x m) Q)
    (hf : ∀ h' a m', h ⊆ h' → Reached h' m' → Q h' a → Tells k h' (l' a m') (f a m') Q') :
    Tells k h (e :: (x m).after l') ((x >>= f) m) Q' :=
  hx.bind hf

/-- An action, and another in which nothing happens. -/
theorem quietly {x : Eval α} {f : α → Eval β} (hx : Tells k h l (x m) Q)
    (hf : ∀ h' a m', h ⊆ h' → Reached h' m' → Q h' a → Tells k h' [] (f a m') Q') :
    Tells k h l ((x >>= f) m) Q' := by
  have hall := hx.bind hf
  have hnone : (x m).after (fun _ _ => []) = [] := by cases x m <;> rfl
  rwa [hnone, List.append_nil] at hall

/-- Before an action a deed is done. -/
theorem behind {deed : Deed} {r : Ending Machine RuntimeError α}
    (hx : Tells k (h ++ [.does μ m deed]) l r Q) : Tells k h (.does μ m deed :: l) r Q := by
  have happend : h ++ opened k (.does μ m deed :: l) = h ++ [.does μ m deed] ++ opened k l := by
    simp [opened]
  unfold Tells at hx ⊢
  rw [happend]
  exact hx

/-- Other frames are current only meanwhile. -/
theorem within {env : Env} {x : Eval α} (hr : Reached h m)
    (hx : Tells k h l (x { m with env := env }) Q) : Tells k h l (Machine.within env x m) Q := by
  unfold Machine.within Action.keeping
  rw [Action.bind_of_done (show Action.update _ m = .done () { m with env := env } from rfl)]
  unfold Tells at hx ⊢
  cases hrun : x { m with env := env } with
  | done a m' =>
    rw [hrun] at hx
    obtain ⟨hc, hr', hq⟩ := hx
    exact ⟨hc, ⟨hc, hr'.store, hr.env.mono (List.subset_append_left _ _)⟩, hq⟩
  | failed e m' =>
    rw [hrun] at hx
    exact hx
  | exhausted =>
    rw [hrun] at hx
    exact hx

end Tells

section Steps

variable {k n : Nat} {h : List Event} {m : Machine} {μ : Moment}

/-- A deed is done on a machine that has been reached. -/
theorem Reached.does (hr : Reached h m) {deed : Deed} (hd : deed.Grounded h μ m) :
    Reached (h ++ [.does μ m deed]) { m with store := deed.effect m.store } := by
  refine ⟨.event hr.chronicle ⟨hr.store, hr.env, hd⟩, ?_, hr.env.mono (List.subset_append_left _ _)⟩
  rw [replay_concat, ← hr.store]
  rfl

/-- The evaluator comes to a moment on a machine that has been reached. -/
theorem Reached.comes (hr : Reached h μ.machine) (hk : μ.activity.Known h) :
    Reached (h ++ [.comes μ]) μ.machine := by
  refine ⟨.event hr.chronicle ⟨hr.store, hr.env, hk⟩, ?_, hr.env.mono (List.subset_append_left _ _)⟩
  rw [replay_concat]
  exact hr.store

/-- What a moment tells, it tells from within. -/
theorem Tells.opens {α : Type} {r : Ending Machine RuntimeError α} {Q : List Event → α → Prop}
    (hr : Reached h μ.machine) (hk : μ.activity.Known h)
    (hx : Reached (h ++ [.comes μ]) μ.machine → Tells k (h ++ [.comes μ]) μ.inside r Q) :
    Tells (k + 1) h [.comes μ] r Q := by
  -- The moment is told first, and the log within it behind.
  have hinside := hx (hr.comes hk)
  have happend : h ++ opened (k + 1) [.comes μ] = h ++ [.comes μ] ++ opened k μ.inside := by
    rw [opened_comes, List.append_cons]
  unfold Tells at hinside ⊢
  rw [happend]
  exact hinside

/-! ## Variables -/

/-- What is in a frame has been written there, so it is known. -/
theorem tells_get (hr : Reached h m) (token : Token) (f : Nat) (x : String) :
    Tells k h [] (atToken token (Store.get f x) m) fun h v => v.Known h := by
  rw [Lexical.atToken_get]
  rcases hs : m.store.slot? f x with _ | _ | v
  · exact .failed hr _
  · exact .failed hr _
  · rw [hr.store] at hs
    exact .done hr (hr.chronicle.slot_known hs)

/-- The same at a distance, if there is a frame. -/
theorem tells_getAt (hr : Reached h m) (token : Token) (env : Env) (d : Nat) (x : String) :
    Tells k h [] (atToken token (Store.getAt env d x) m) fun h v => v.Known h := by
  cases hf : env.ancestor? d with
  | some f =>
    rw [Lexical.getAt_eq_get hf]
    exact tells_get hr _ _ _
  | none =>
    have hrun : atToken token (Store.getAt env d x) m = .failed ⟨token, .noEnclosingScope⟩ m := by
      unfold Store.getAt Store.ancestor
      rw [hf]
      rfl
    rw [hrun]
    exact .failed hr _

/-- What a name stands for is known. -/
theorem tells_lookUp (hr : Reached h m) (ref : Ref) :
    Tells k h [] (lookUp ref m) fun h v => v.Known h := by
  rw [lookUp_run]
  cases m.resolution[ref.id]? with
  | some distance => exact tells_getAt hr _ _ _ _
  | none => exact tells_get hr _ _ _

/-- A write of values that are known is grounded. -/
theorem tells_writes (hr : Reached h m) {f : Nat} {x : String} {slot : Option Value}
    (hs : ∀ v ∈ slot, v.Known h) :
    Tells k h [.does μ m (.writes f x slot)] (.done () { m with store := m.store.put f x slot })
      fun _ _ => True := by
  have hd : (Deed.writes f x slot).Grounded h μ m := hs
  exact .behind (.done (hr.does hd) trivial)

/-- A name is declared by one write, unless it is there. -/
theorem tells_declaring (hr : Reached h m) (name : Token) {slot : Option Value}
    (hs : ∀ v ∈ slot, v.Known h) :
    Tells k h (μ.declaring name slot m) (define name slot m) fun _ _ => True := by
  have hrun : define name slot m = atToken name (Store.define m.env.frame name.lexeme slot) m := rfl
  rw [hrun, Lexical.atToken_define, Moment.declaring]
  split
  · exact .failed hr _
  · exact tells_writes hr hs

/-- A name is assigned by one write, if it is there. -/
theorem tells_assigning (hr : Reached h m) (token : Token) (f : Nat) (x : String) {v : Value}
    (hv : v.Known h) :
    Tells k h (μ.assigning f x v m) (atToken token (Store.assign f x v) m) fun _ _ => True := by
  rw [Lexical.atToken_assign, Moment.assigning]
  split
  · refine tells_writes hr fun w hw => ?_
    cases hw
    exact hv
  · exact .failed hr _

/-- Parameters are declared by as many writes, up to the first that is there. -/
theorem tells_supplying (hr : Reached h m) (f : Nat) (params : List Token) {given : List Value}
    (hg : ∀ a ∈ given, a.Known h) :
    Tells k h (μ.supplying f params given m) (defineParams f params given m) fun _ _ => True := by
  -- The chronicle grows with each parameter, so it is general in the induction.
  induction params generalizing given m h with
  | nil => cases given <;> exact .done hr trivial
  | cons param params ih =>
    cases given with
    | nil => exact .done hr trivial
    | cons value values =>
      rw [Moment.supplying]
      show Tells k h _ ((atToken param (Store.define f param.lexeme (some value)) >>=
        fun _ => defineParams f params values) m) _
      have hdefine := Lexical.atToken_define param f param.lexeme (some value) m
      split
      · rename_i hthere
        rw [if_pos hthere] at hdefine
        rw [Action.bind_of_failed hdefine]
        exact .failed hr _
      · rename_i hthere
        rw [if_neg hthere] at hdefine
        rw [Action.bind_of_done hdefine]
        have hd : (Deed.writes f param.lexeme (some value)).Grounded h μ m := by
          intro v hv
          cases hv
          exact hg value List.mem_cons_self
        refine .behind (ih (hr.does hd) ?_)
        intro a ha
        exact (hg a (List.mem_cons_of_mem _ ha)).mono (List.subset_append_left _ _)

/-! ## Functions and instances -/

/-- A function that sees known frames comes to be, and is known from then on. -/
theorem tells_making (hr : Reached h m) {closure : Closure} (hc : closure.env.Known h) :
    Tells k h (μ.making closure m) (functionValue closure m) fun h v => v.Known h := by
  -- The number of a function is the next one, in the store as in the chronicle.
  have hd : (Deed.makes (.function m.store.nextIdentity closure)).Grounded h μ m := by
    refine ⟨hc, fun supply number hmark => ?_⟩
    cases hmark
    rfl
  refine .behind (.done (hr.does hd) ?_)
  exact ⟨μ, m, List.mem_append_right h (List.mem_singleton_self _)⟩

/-- The variables around a method are known. -/
theorem Chronicle.method_env (hc : Chronicle h) {method : Closure} (hm : method.IsMethod h) :
    method.env.Known h := by
  obtain ⟨c, μ, parent, around, d, -, hclass, -, rfl⟩ := hc.method_grounded hm
  exact hclass.seen

/-- The variables that a function sees are known. -/
theorem Chronicle.function_env (hc : Chronicle h) {id : Nat} {closure : Closure}
    (hv : Value.Known h (.function id closure)) : closure.env.Known h := by
  obtain ⟨μ, m, hmem⟩ := hv
  obtain ⟨before, after, rfl⟩ := List.append_of_mem hmem
  have henv : closure.env.Known before := (hc.grounded rfl).2.matter.1
  exact henv.mono (List.subset_append_left _ _)

/-- A method sees the instance that it is bound to. -/
theorem tells_bind (hn : n < k) (hr : Reached h m) {method : Closure} (hm : method.IsMethod h) {id : Nat}
    {c : Class} (hv : Value.Known h (.object id c)) :
    Tells k h [.comes ⟨n, .bind method (.object id c), m⟩] (bindThis method (.object id c) m)
      fun h bound => bound.env.Known h := by
  obtain ⟨j, rfl⟩ : ∃ j, k = j + 1 := ⟨k - 1, by omega⟩
  refine .opens hr ⟨hm, id, c, rfl, hv⟩ fun hr => ?_
  -- What has been known before the moment is known at it.
  have hm' := hm.mono (List.subset_append_left h [.comes ⟨n, .bind method (.object id c), m⟩])
  have hv' := hv.mono (List.subset_append_left h [.comes ⟨n, .bind method (.object id c), m⟩])
  have henv := hr.chronicle.method_env hm'
  have hd : (Deed.opens method.env (Table.empty.insert "this" (some (.object id c)))).Grounded
      (h ++ [.comes ⟨n, .bind method (.object id c), m⟩]) ⟨n, .bind method (.object id c), m⟩ m := by
    refine ⟨henv, fun x v hx => ?_⟩
    rw [Table.get?_insert] at hx
    split at hx
    · cases hx
      exact hv'
    · cases hx
  rw [Moment.inside_bind]
  refine .behind (.done (hr.does hd) ?_)
  exact .extend (henv.mono (List.subset_append_left _ _))
    (List.mem_append_right _ (List.mem_singleton_self _))

/-- A method is bound, and the bound one comes to be. -/
theorem tells_fetching (hn : n < k) (hr : Reached h m) {method : Closure} (hm : method.IsMethod h)
    {id : Nat} {c : Class} (hv : Value.Known h (.object id c)) :
    Tells k h (μ.fetching n method (.object id c) m)
      ((do functionValue (← bindThis method (.object id c)) : Eval Value) m) fun h v => v.Known h :=
  .first (tells_bind hn hr hm hv) fun _ _ _ _ hr' hbound => tells_making hr' hbound

/-- A property that is found is known. -/
theorem tells_reading (hn : n < k) (hr : Reached h m) {v : Value} (hv : v.Known h) (name : Token) :
    Tells k h (μ.reading n v name m) (getProperty v name m) fun h v => v.Known h := by
  have hd : (Deed.reads v name).Grounded h μ m := hv
  have hr' : Reached (h ++ [.does μ m (.reads v name)]) m := hr.does hd
  have hv' := hv.mono (List.subset_append_left h [.does μ m (.reads v name)])
  refine .behind ?_
  cases v with
  | object id c =>
    rw [getProperty_run]
    dsimp only
    cases hfield : m.store.field? id name.lexeme with
    | some field =>
      rw [hr'.store] at hfield
      exact .done hr' (hr'.chronicle.field_known hfield)
    | none =>
      cases hmethod : c.method? name.lexeme with
      | none => exact .failed hr' _
      | some method =>
        obtain ⟨μ', m', hmem⟩ := hv'
        -- The class of an instance was known when the instance came to be, and with the class its methods
        -- are.
        obtain ⟨before, after, hsplit⟩ := List.append_of_mem hmem
        have hclass : Value.Known before (.classOf c) :=
          (hr'.chronicle.grounded hsplit).2.matter.1
        have hm : method.IsMethod (h ++ [.does μ m (.reads (.object id c) name)]) :=
          ⟨c, name.lexeme, hclass.mono (hsplit ▸ List.subset_append_left _ _), hmethod⟩
        dsimp only
        by_cases hinit : name.lexeme = "init"
        · rw [if_pos hinit, if_pos hinit]
          exact .failed hr' _
        · rw [if_neg hinit, if_neg hinit]
          exact tells_fetching hn hr' hm ⟨μ', m', hmem⟩
  | _ => exact .failed hr' _

/-- Reading a variable changes nothing. -/
theorem getAt_cases (env : Env) (d : Nat) (x : String) (s : Store) :
    (∃ v, Store.getAt env d x s = .done v s) ∨ ∃ fault, Store.getAt env d x s = .failed fault s := by
  cases hf : env.ancestor? d with
  | some f =>
    rw [Lexical.getAt_eq_get hf, Store.get]
    rcases s.slot? f x with _ | _ | v
    · exact .inr ⟨_, rfl⟩
    · exact .inr ⟨_, rfl⟩
    · exact .inl ⟨v, rfl⟩
  | none =>
    refine .inr ⟨.noEnclosingScope, ?_⟩
    unfold Store.getAt Store.ancestor
    rw [hf]
    rfl

/-- A step that fails without a change does so on the machine. -/
theorem atToken_failed {α : Type} {token : Token} {step : StoreStep α} {m : Machine}
    {fault : RuntimeFault} (h : step m.store = .failed fault m.store) :
    atToken token step m = .failed ⟨token, fault⟩ m := by
  simp only [atToken, h]

/-- A method that `super` names is known. -/
theorem tells_readingSuper (hn : n < k) (hr : Reached h m) (ref : Ref) (method : Token) :
    Tells k h (μ.readingSuper n ref method m) (superMethod ref method m) fun h v => v.Known h := by
  unfold Moment.readingSuper
  rw [superMethod_run]
  cases m.resolution[ref.id]? with
  | none => exact .failed hr _
  | some d =>
    dsimp only
    -- Both variables are read without a deed, so what they hold is known from the chronicle as it is.
    have hclass := tells_getAt (k := k) hr ref.name m.env d ref.name.lexeme
    rcases getAt_cases m.env d ref.name.lexeme m.store with ⟨v, hv⟩ | ⟨fault, hfault⟩
    · have hrun : atToken ref.name (Store.getAt m.env d ref.name.lexeme) m = .done v m :=
        Lexical.atToken_done hv
      rw [hrun] at hclass
      rw [Action.bind_of_done hrun, hv]
      cases v with
      | classOf superclass =>
        dsimp only
        have hthis := tells_getAt (k := k) hr (Token.named "this" ref.name.line) m.env (d - 1) "this"
        rcases getAt_cases m.env (d - 1) "this" m.store with ⟨w, hw⟩ | ⟨fault, hfault⟩
        · have hrun' : atToken (Token.named "this" ref.name.line)
              (Store.getAt m.env (d - 1) "this") m = .done w m := Lexical.atToken_done hw
          rw [hrun'] at hthis
          rw [Action.bind_of_done hrun', hw]
          cases w with
          | object id c =>
            dsimp only
            cases hfound : superclass.method? method.lexeme with
            | none => exact .failed hr _
            | some found =>
              have hk : Value.Known h (.classOf superclass) := by simpa [opened] using hclass.2.2
              have hv : Value.Known h (.object id c) := by simpa [opened] using hthis.2.2
              exact tells_fetching hn hr ⟨superclass, _, hk, hfound⟩ hv
          | _ => exact .failed hr _
        · rw [Action.bind_of_failed (atToken_failed hfault), hfault]
          exact .failed hr _
      | _ => exact .failed hr _
    · rw [Action.bind_of_failed (atToken_failed hfault), hfault]
      exact .failed hr _

/-- The variables around the methods of a class are known, and if it extends another there is a frame
    with that. -/
theorem tells_surrounding (hr : Reached h m) {parent : Option Class}
    (hp : ∀ p ∈ parent, Value.Known h (.classOf p)) :
    Tells k h (μ.surrounding parent m) (aroundMethods m.env parent m) fun h around =>
      around.Known h ∧ (parent = none → around = m.env) ∧
        ∀ p ∈ parent, ∃ m env, around = env.extend m.store.frames.size ∧
          .does μ m (.opens env (Table.empty.insert "super" (some (.classOf p)))) ∈ h := by
  cases parent with
  | none => exact .done hr ⟨hr.env, fun _ => rfl, nofun⟩
  | some p =>
    -- The one name in the frame is `super`, whose value is the class that is known.
    have hd : (Deed.opens m.env (Table.empty.insert "super" (some (.classOf p)))).Grounded h μ m := by
      refine ⟨hr.env, fun x v hx => ?_⟩
      rw [Table.get?_insert] at hx
      split at hx
      · cases hx
        exact hp p rfl
      · cases hx
    refine .behind (.done (hr.does hd) ?_)
    have hmem := List.mem_append_right h (List.mem_singleton_self
      (Event.does μ m (.opens m.env (Table.empty.insert "super" (some (.classOf p))))))
    refine ⟨.extend (hr.env.mono (List.subset_append_left _ _)) hmem, nofun, fun q hq => ?_⟩
    cases hq
    exact ⟨m, m.env, rfl, hmem⟩

/-- A class comes to be as its statement says. -/
theorem tells_founding (hr : Reached h m) {name : Token} {superclass : Option Ref}
    {methods : List FunctionDecl} {parent : Option Class} {start : Machine}
    (hμ : μ = ⟨n, .execute (.classDecl name superclass methods), start⟩)
    (hparent : parentOf superclass start = .done parent m) (hcome : .comes μ ∈ h)
    (hp : ∀ p ∈ parent, Value.Known h (.classOf p)) :
    Tells k h (μ.founding name methods parent m)
      ((do
        define name none
        let env ← .read Machine.env
        let around ← aroundMethods env parent
        let identity ← make Store.newIdentity
        let own : ClassBody := ⟨identity, name.lexeme, methodTable methods around⟩
        atToken name (Store.assign env.frame name.lexeme (.classOf ⟨own, parent.elim [] Class.chain⟩))
        : Eval Unit) m)
      fun _ _ => True := by
  have hnone : ∀ v ∈ (none : Option Value), v.Known h := nofun
  -- The steps are those of the statement: declare, make the frame around, make the class, assign.
  refine (tells_declaring hr name hnone).bind_run fun h₁ _ m₁ hdefine hsub₁ hr₁ _ => ?_
  -- To declare the name of the class leaves the current frames as they are.
  have henv₁ : m₁.env = m.env := by
    have hrun : define name none m = atToken name (Store.define m.env.frame name.lexeme none) m := rfl
    rw [hrun, Lexical.atToken_define] at hdefine
    split at hdefine <;> cases hdefine
    rfl
  have hp₁ : ∀ p ∈ parent, Value.Known h₁ (.classOf p) := fun p hpp => (hp p hpp).mono hsub₁
  have henv : (Action.read Machine.env : Eval Env) m₁ = .done m₁.env m₁ := rfl
  rw [Action.bind_of_done henv]
  refine (tells_surrounding hr₁ hp₁).bind fun h₂ around m₂ hsub₂ hr₂ haround => ?_
  -- Without a superclass the methods see what the statement sees.
  have hplain : parent = none → around = μ.machine.env := by
    intro hnone'
    cases superclass with
    | none =>
      cases hparent
      rw [haround.2.1 hnone', henv₁, hμ]
    | some ref =>
      have hfound : (some <$> superclassOf ref : Eval _) start = .done parent m := hparent
      rw [map_eq_pure_bind, hnone'] at hfound
      obtain ⟨c, m', -, hrest⟩ := Action.bind_eq_done_iff.mp hfound
      cases hrest
  have hclass : Class.Grounded h₂ μ
      ⟨⟨m₂.store.nextIdentity, name.lexeme, methodTable methods around⟩, parent.elim [] Class.chain⟩
      parent around :=
    ⟨⟨n, name, superclass, methods, start, m, hμ, hparent, rfl, rfl⟩, hsub₂ (hsub₁ hcome), haround.1,
      rfl, hplain, fun p hpp => ⟨(hp₁ p hpp).mono hsub₂, haround.2.2 p hpp⟩⟩
  have hd : (Deed.makes (.classOf ⟨⟨m₂.store.nextIdentity, name.lexeme, methodTable methods around⟩,
      parent.elim [] Class.chain⟩)).Grounded h₂ μ m₂ := by
    refine ⟨⟨parent, around, hclass⟩, fun supply number hmark => ?_⟩
    cases hmark
    rfl
  refine .behind ?_
  have hmem := List.mem_append_right h₂ (List.mem_singleton_self (Event.does μ m₂ (.makes (.classOf
    ⟨⟨m₂.store.nextIdentity, name.lexeme, methodTable methods around⟩, parent.elim [] Class.chain⟩))))
  exact tells_assigning (hr₂.does hd) name m₁.env.frame name.lexeme ⟨μ, m₂, hmem⟩

/-! ## Moments that lead no further -/

/-- The moment at which a name is looked up has no log but itself. -/
theorem tells_lookUp_moment (hn : n < k) (hr : Reached h m) (ref : Ref) :
    Tells k h [.comes ⟨n, .lookUp ref, m⟩] (lookUp ref m) fun h v => v.Known h := by
  obtain ⟨j, rfl⟩ : ∃ j, k = j + 1 := ⟨k - 1, by omega⟩
  refine .opens hr trivial fun hr => ?_
  rw [Moment.inside_lookUp]
  exact tells_lookUp hr ref

/-- The moment at which a variable is assigned to has one deed, or none. -/
theorem tells_assign_moment (hn : n < k) (hr : Reached h m) (ref : Ref) {v : Value} (hv : v.Known h) :
    Tells k h [.comes ⟨n, .assign ref v, m⟩] (assign ref v m) fun _ _ => True := by
  obtain ⟨j, rfl⟩ : ∃ j, k = j + 1 := ⟨k - 1, by omega⟩
  refine .opens hr hv fun hr => ?_
  have hv' := hv.mono (List.subset_append_left h [.comes ⟨n, .assign ref v, m⟩])
  rw [Moment.inside_assign, assign_run]
  -- Without a distance it is the globals that are assigned to, otherwise the frame there, if there is one.
  cases m.resolution[ref.id]? with
  | none => exact tells_assigning hr _ _ _ hv'
  | some d =>
    dsimp only [Option.elim_some]
    cases hf : m.env.ancestor? d with
    | some f =>
      rw [Lexical.assignAt_eq_assign hf]
      exact tells_assigning hr _ _ _ hv'
    | none =>
      have hrun : Store.assignAt m.env d ref.name.lexeme v m.store =
          .failed .noEnclosingScope m.store := by
        unfold Store.assignAt Store.ancestor
        rw [hf]
        rfl
      rw [atToken_failed hrun]
      exact .failed hr _

/-! ## Operators and native functions -/

/-- What an operator gives is known. -/
theorem tells_liftAt (hr : Reached h m) (token : Token) {r : Except RuntimeFault Value}
    (hk : ∀ v, r = .ok v → v.Known h) : Tells k h [] (liftAt token r m) fun h v => v.Known h := by
  cases r with
  | ok v => exact .done hr (hk v rfl)
  | error fault => exact .failed hr _

/-- What an operator gives has no identity. -/
theorem unary_known {kind : TokenKind} {v w : Value} (hw : Operator.unary kind v = .ok w) :
    w.Known h := by
  unfold Operator.unary at hw
  split at hw <;> cases hw <;> trivial

/-- The same for two operands. -/
theorem binary_known {kind : TokenKind} {a b w : Value} (hw : Operator.binary kind a b = .ok w) :
    w.Known h := by
  have honNumbers : ∀ {x y : Float}, Operator.onNumbers kind x y = .ok w → w.Known h := by
    intro x y h
    unfold Operator.onNumbers at h
    split at h <;> cases h <;> trivial
  unfold Operator.binary at hw
  split at hw
  · unfold Operator.add at hw
    split at hw <;> cases hw <;> trivial
  · cases hw
    trivial
  · cases hw
    trivial
  · split at hw
    · exact honNumbers hw
    · cases hw

/-- A native function gives no function, class or instance, and what it does to the host is no deed. -/
theorem tells_callNative (hr : Reached h m) (paren : Token) (native : Native) (given : List Value) :
    Tells k h [] (callNative paren native given m) fun h v => v.Known h := by
  have hknown : ∀ v host, nativeAnswer given m.host native = (.ok v, host) → v.Known h := by
    intro v host hv
    unfold nativeAnswer at hv
    split at hv
    · cases hv
      trivial
    · split at hv <;> cases hv
      trivial
    · split at hv <;> cases hv
      trivial
  rw [callNative_run]
  generalize hanswer : nativeAnswer given m.host native = answer at hknown
  obtain ⟨r, host⟩ := answer
  have hr' : Reached h { m with host := host } := ⟨hr.chronicle, hr.store, hr.env⟩
  cases r with
  | ok v => exact .done hr' (hknown v host rfl)
  | error fault => exact .failed hr' _

/-! ## Calls and instances -/

/-- An initializer hands back what stands for `this`, any other function what its body has returned. -/
theorem tells_answer (hr : Reached h m) (closure : Closure) {completion : Completion}
    (hv : ∀ v, completion = .returned v → v.Known h) :
    Tells k h [] (answer closure completion m) fun h v => v.Known h := by
  unfold answer
  split
  · exact tells_get hr _ _ _
  · cases completion with
    | returned v => exact .done hr (hv v rfl)
    | _ => exact .done hr trivial

end Steps

/-- Of all moments that lie less deep the log is told. -/
structure Telling (k : Nat) : Prop where
  evaluate : ∀ {n h m}, n < k → Reached h m → ∀ e, Tells k h [.comes ⟨n, .evaluate e, m⟩]
    (evaluate n e m) fun h v => v.Known h
  evaluateAll : ∀ {n h m}, n < k → Reached h m → ∀ es, Tells k h [.comes ⟨n, .evaluateAll es, m⟩]
    (evaluateAll n es m) fun h vs => ∀ v ∈ vs, v.Known h
  call : ∀ {n h m v paren given}, n < k → Reached h m → v.Known h → (∀ a ∈ given, a.Known h) →
    Tells k h [.comes ⟨n, .call v paren given, m⟩] (call n v paren given m) fun h v => v.Known h
  callClosure : ∀ {n h m c given}, n < k → Reached h m → c.env.Known h → (∀ a ∈ given, a.Known h) →
    Tells k h [.comes ⟨n, .callClosure c given, m⟩] (callClosure n c given m) fun h v => v.Known h
  execute : ∀ {n h m}, n < k → Reached h m → ∀ s, Tells k h [.comes ⟨n, .execute s, m⟩]
    (execute n s m) fun h completion => ∀ v, completion = .returned v → v.Known h
  executeAll : ∀ {n h m}, n < k → Reached h m → ∀ ss, Tells k h [.comes ⟨n, .executeAll ss, m⟩]
    (executeAll n ss m) fun h completion => ∀ v, completion = .returned v → v.Known h

namespace Telling

variable {k n : Nat} {h : List Event} {m : Machine} {μ : Moment}

/-- The instance is known before its initializer is called, for this is bound to it. -/
theorem creating (ih : Telling k) (hn : n < k) (hr : Reached h m) {c : Class}
    (hk : Value.Known h (.classOf c)) {given : List Value} (hg : ∀ a ∈ given, a.Known h) :
    Tells k h (μ.creating n c given m)
      ((do
        let identity ← make Store.newObject
        let created := Value.object identity c
        match c.method? "init" with
        | none => pure created
        | some init =>
          let ready ← bindThis init created
          let _ ← Eval.callClosure n ready given
          pure created : Eval Value) m)
      fun h v => v.Known h := by
  have hd : (Deed.makes (.object m.store.objects.size c)).Grounded h μ m := by
    refine ⟨hk, fun supply number hmark => ?_⟩
    cases hmark
    rfl
  refine .behind ?_
  have hr₁ := hr.does hd
  -- The instance is known by the deed that has made it.
  have hsub := List.subset_append_left h [.does μ m (.makes (.object m.store.objects.size c))]
  have hv : Value.Known (h ++ [.does μ m (.makes (.object m.store.objects.size c))])
      (.object m.store.objects.size c) :=
    ⟨μ, m, List.mem_append_right _ (List.mem_singleton_self _)⟩
  have hrun : make Store.newObject m = .done m.store.objects.size { m with store := m.store.newObject.2 } :=
    rfl
  rw [Action.bind_of_done hrun, hrun, Moment.after_done]
  cases hinit : c.method? "init" with
  | none => exact .done hr₁ hv
  | some init =>
    refine .first (tells_bind hn hr₁ ⟨c, _, hk.mono hsub, hinit⟩ hv) fun h₂ ready m₂ hsub₂ hr₂ hready => ?_
    refine (ih.callClosure hn hr₂ hready fun a ha => (hg a ha).mono fun _ he => hsub₂ (hsub he)).quietly ?_
    exact fun h₃ _ m₃ hsub₃ hr₃ _ => .done hr₃ (hv.mono fun _ he => hsub₃ (hsub₂ he))

/-- The frame of a call is known, and so are the arguments that are put in it. -/
theorem entering (ih : Telling k) (hn : n < k) (hr : Reached h m) {closure : Closure}
    (hc : closure.env.Known h) {given : List Value} (hg : ∀ a ∈ given, a.Known h) :
    Tells k h (μ.entering n closure given m)
      ((do
        let env ← make (Store.push closure.env .empty)
        defineParams env.frame closure.declaration.params given
        let completion ← Machine.within env (Eval.executeAll n closure.declaration.body)
        answer closure completion : Eval Value) m)
      fun h v => v.Known h := by
  have hd : (Deed.opens closure.env .empty).Grounded h μ m := ⟨hc, nofun⟩
  have hsub := List.subset_append_left h [.does μ m (.opens closure.env .empty)]
  -- The frames of the call are those of the function with a new one inside.
  have henv : Env.Known (h ++ [.does μ m (.opens closure.env .empty)])
      (closure.env.extend m.store.frames.size) :=
    .extend (hc.mono hsub) (List.mem_append_right _ (List.mem_singleton_self _))
  have hrun : make (Store.push closure.env .empty) m =
      .done (closure.env.extend m.store.frames.size)
        { m with store := (m.store.push closure.env .empty).2 } := rfl
  refine .behind ?_
  rw [Action.bind_of_done hrun, hrun, Moment.after_done]
  -- The parameters get known values; then the body is run in the new frame.
  refine (tells_supplying (hr.does hd) _ _ fun a ha => (hg a ha).mono hsub).bind
    fun h₂ _ m₂ hsub₂ hr₂ _ => ?_
  have hr₂' : Reached h₂ { m₂ with env := closure.env.extend m.store.frames.size } :=
    ⟨hr₂.chronicle, hr₂.store, henv.mono hsub₂⟩
  refine (Tells.within hr₂ (ih.executeAll hn hr₂' _)).quietly fun h₃ completion m₃ _ hr₃ hcompletion => ?_
  exact tells_answer hr₃ closure hcompletion

/-! ## The rules

  By induction on the fuel, with the log of each activity as it has been written out. -/

/-- Every form of expressions, from left to right. -/
theorem evaluating (ih : Telling k) (hn : n < k) (hr : Reached h m) (e : Expr) :
    Tells k h (Moment.evaluating μ n m e) (Eval.evaluate (n + 1) e m) fun h v => v.Known h := by
  -- Each case is the sequence of the evaluator: `first` for a part that is a moment, `quietly` for what is
  -- none.
  cases e with
  | literal value => exact .done hr (by cases value <;> trivial)
  | grouping inner => exact ih.evaluate hn hr inner
  | unary operator right =>
    refine (ih.evaluate hn hr right).quietly fun _ v m' _ hr' _ => ?_
    exact tells_liftAt hr' operator fun w hw => unary_known hw
  | binary left operator right =>
    refine .first (ih.evaluate hn hr left) fun _ a m₁ _ hr₁ _ => ?_
    refine (ih.evaluate hn hr₁ right).quietly fun _ b m₂ _ hr₂ _ => ?_
    exact tells_liftAt hr₂ operator fun w hw => binary_known hw
  | logical left operator right =>
    refine .first (ih.evaluate hn hr left) fun _ a m₁ _ hr₁ ha => ?_
    split
    · exact .done hr₁ ha
    · exact ih.evaluate hn hr₁ right
  | ternary condition thenBranch elseBranch =>
    refine .first (ih.evaluate hn hr condition) fun _ v m₁ _ hr₁ _ => ?_
    split
    · exact ih.evaluate hn hr₁ thenBranch
    · exact ih.evaluate hn hr₁ elseBranch
  | «variable» ref => exact tells_lookUp_moment hn hr ref
  | assign ref value =>
    refine .first (ih.evaluate hn hr value) fun _ v m₁ _ hr₁ hv => ?_
    refine (tells_assign_moment hn hr₁ ref hv).quietly fun _ _ m₂ hsub hr₂ _ => ?_
    exact .done hr₂ (hv.mono hsub)
  | call callee paren arguments =>
    refine .first (ih.evaluate hn hr callee) fun _ v m₁ _ hr₁ hv => ?_
    refine .first (ih.evaluateAll hn hr₁ arguments) fun _ given m₂ hsub hr₂ hg => ?_
    exact ih.call hn hr₂ (hv.mono hsub) hg
  | get object name =>
    refine .first (ih.evaluate hn hr object) fun _ v m₁ _ hr₁ hv => ?_
    exact tells_reading hn hr₁ hv name
  | set object name value =>
    refine .first (ih.evaluate hn hr object) fun _ v m₁ _ hr₁ hv => ?_
    cases v with
    | object id c =>
      refine .first (ih.evaluate hn hr₁ value) fun _ w m₂ hsub hr₂ hw => ?_
      have hd : (Deed.stores id name.lexeme w).Grounded _ μ m₂ := ⟨hw, c, hv.mono hsub⟩
      exact .behind (.done (hr₂.does hd) (hw.mono (List.subset_append_left _ _)))
    | _ => exact .failed hr₁ _
  | lambda declaration => exact tells_making hr hr.env
  | this ref => exact tells_lookUp_moment hn hr ref
  | super ref method => exact tells_readingSuper hn hr ref method

/-- Every form of statements. That a class is told of needs the moment itself, as the class is known by the
    statement that has made it. -/
theorem executing (ih : Telling k) (hn : n < k) {s : Stmt} (hμ : μ = ⟨n + 1, .execute s, m⟩)
    (hcome : .comes μ ∈ h) (hr : Reached h m) :
    Tells k h (Moment.executing μ n m s) (Eval.execute (n + 1) s m)
      fun h completion => ∀ v, completion = .returned v → v.Known h := by
  -- Most statements end normally, with nothing to hand back.
  have hnormal : ∀ {h' m'}, Reached h' m' → Tells k h' [] (.done Completion.normal m')
      fun h completion => ∀ v, completion = .returned v → v.Known h := fun hr' => .done hr' nofun
  cases s with
  | expression value => exact (ih.evaluate hn hr value).quietly fun _ _ _ _ hr' _ => hnormal hr'
  | value value => exact (ih.evaluate hn hr value).quietly fun _ _ _ _ hr' _ => hnormal hr'
  | varDecl name initializer =>
    cases initializer with
    | none =>
      have hnone : ∀ v ∈ (none : Option Value), v.Known h := nofun
      exact (tells_declaring hr name hnone).quietly fun _ _ _ _ hr' _ => hnormal hr'
    | some e =>
      have hrun : Eval.execute (n + 1) (.varDecl name (some e)) = (do
          let v ← Eval.evaluate n e
          define name (some v)
          pure .normal : Eval Completion) := bind_map_left _ _ _
      rw [hrun]
      refine .first (ih.evaluate hn hr e) fun h₁ v m₁ _ hr₁ hv => ?_
      have hslot : ∀ w ∈ some v, w.Known h₁ := by
        intro w hw
        cases hw
        exact hv
      exact (tells_declaring hr₁ name hslot).quietly fun _ _ _ _ hr' _ => hnormal hr'
  | block body =>
    have hd : (Deed.opens m.env .empty).Grounded h μ m := ⟨hr.env, nofun⟩
    have hrun : make (Store.push m.env .empty) m = .done (m.env.extend m.store.frames.size)
        { m with store := (m.store.push m.env .empty).2 } := rfl
    have hr₁ : Reached (h ++ [.does μ m (.opens m.env .empty)])
        { m with store := (m.store.push m.env .empty).2 } := hr.does hd
    have hinner : Reached (h ++ [.does μ m (.opens m.env .empty)])
        ⟨(m.store.push m.env .empty).2, m.env.extend m.store.frames.size, m.resolution, m.host⟩ :=
      ⟨hr₁.chronicle, hr₁.store, .extend (hr.env.mono (List.subset_append_left _ _))
        (List.mem_append_right _ (List.mem_singleton_self _))⟩
    exact .behind (.within hr₁ (ih.executeAll hn hinner body))
  | ifElse condition thenBranch elseBranch =>
    refine .first (ih.evaluate hn hr condition) fun _ v m₁ _ hr₁ _ => ?_
    split
    · exact ih.execute hn hr₁ thenBranch
    · cases elseBranch with
      | none => exact hnormal hr₁
      | some branch => exact ih.execute hn hr₁ branch
  | whileLoop condition body =>
    refine .first (ih.evaluate hn hr condition) fun _ v m₁ _ hr₁ _ => ?_
    split
    · refine .first (ih.execute hn hr₁ body) fun _ completion m₂ _ hr₂ hc => ?_
      cases completion with
      | normal => exact ih.execute hn hr₂ (.whileLoop condition body)
      | broke => exact hnormal hr₂
      | returned v => exact .done hr₂ hc
    · exact hnormal hr₁
  | breakLoop keyword => exact .done hr nofun
  | funcDecl declaration =>
    have hc : Env.Known h (Closure.mk declaration m.env false).env := hr.env
    show Tells k h _ ((do
      let value ← functionValue ⟨declaration, m.env, false⟩
      define (declaration.name.getD declaration.keyword) (some value)
      pure .normal : Eval Completion) m) _
    refine (tells_making hr hc).bind fun _ v m₁ _ hr₁ hv => ?_
    refine (tells_declaring hr₁ _ ?_).quietly fun _ _ _ _ hr' _ => hnormal hr'
    intro w hw
    cases hw
    exact hv
  | classDecl name superclass methods =>
    cases superclass with
    | none =>
      have hp : ∀ p ∈ (none : Option Class), Value.Known h (.classOf p) := nofun
      exact (tells_founding hr hμ rfl hcome hp).quietly fun _ _ _ _ hr' _ => hnormal hr'
    | some ref =>
      have hrun : declareClass name (some ref) methods = (do
          let c ← superclassOf ref
          define name none
          let env ← .read Machine.env
          let around ← aroundMethods env (some c)
          let identity ← make Store.newIdentity
          let own : ClassBody := ⟨identity, name.lexeme, methodTable methods around⟩
          atToken name (Store.assign env.frame name.lexeme (.classOf ⟨own, c.chain⟩)) : Eval Unit) :=
        bind_map_left _ _ _
      -- The superclass is looked up first; what has been found is known to be a class.
      have hclass : Tells k h [.comes ⟨n, .lookUp ref, m⟩] (superclassOf ref m)
          fun h c => Value.Known h (.classOf c) := by
        refine (tells_lookUp_moment hn hr ref).quietly fun _ v m₁ _ hr₁ hv => ?_
        cases v with
        | classOf c => exact .done hr₁ hv
        | _ => exact .failed hr₁ _
      have hdeclare : Tells k h (Moment.executing μ n m (.classDecl name (some ref) methods))
          (declareClass name (some ref) methods m) fun _ _ => True := by
        rw [hrun]
        refine hclass.bind_run fun h₁ c m₁ hfound hsub hr₁ hknown => ?_
        have hparent : parentOf (some ref) m = .done (some c) m₁ := by
          show (some <$> superclassOf ref) m = _
          rw [map_eq_pure_bind, Action.bind_of_done hfound]
          rfl
        refine tells_founding hr₁ hμ hparent (hsub hcome) fun p hp => ?_
        cases hp
        exact hknown
      exact hdeclare.quietly fun _ _ _ _ hr' _ => hnormal hr'
  | returnValue keyword value =>
    cases value with
    | none =>
      refine .done hr fun v hv => ?_
      cases hv
      trivial
    | some e =>
      have hrun : Eval.execute (n + 1) (.returnValue keyword (some e)) = (do
          let v ← Eval.evaluate n e
          pure (.returned v) : Eval Completion) := bind_map_left _ _ _
      rw [hrun]
      refine (ih.evaluate hn hr e).quietly fun _ v m₁ _ hr₁ hv => .done hr₁ fun w hw => ?_
      cases hw
      exact hv

/-- More depth tells more. -/
theorem succ (ih : Telling k) : Telling (k + 1) where
  evaluate {n h m} hn hr e := by
    refine .opens hr trivial fun hr => ?_
    cases n with
    | zero => exact .exhausted hr
    | succ n => exact ih.evaluating (by omega) hr e
  evaluateAll {n h m} hn hr es := by
    refine .opens hr trivial fun hr => ?_
    cases n with
    | zero => exact .exhausted hr
    | succ n =>
      cases es with
      | nil => exact .done hr nofun
      | cons e es =>
        refine .first (ih.evaluate (by omega) hr e) fun _ v m₁ _ hr₁ hv => ?_
        refine (ih.evaluateAll (by omega) hr₁ es).quietly fun _ vs m₂ hsub hr₂ hvs => ?_
        refine .done hr₂ fun w hw => ?_
        rcases List.mem_cons.mp hw with rfl | hw
        · exact hv.mono hsub
        · exact hvs w hw
  call {n h m v paren given} hn hr hv hg := by
    refine .opens hr ⟨hv, hg⟩ fun hr => ?_
    -- The function and the arguments are still known at the moment of the call.
    have hsub := List.subset_append_left h [.comes ⟨n, .call v paren given, m⟩]
    have hg' : ∀ a ∈ given, a.Known (h ++ [.comes ⟨n, .call v paren given, m⟩]) := fun a ha =>
      (hg a ha).mono hsub
    cases n with
    | zero => exact .exhausted hr
    | succ n =>
      cases v with
      | native native => exact tells_callNative hr paren native given
      | function id closure =>
        exact ih.callClosure (by omega) hr (hr.chronicle.function_env (hv.mono hsub)) hg'
      | classOf c => exact ih.creating (by omega) hr (hv.mono hsub) hg'
      | _ => exact .failed hr _
  callClosure {n h m c given} hn hr hc hg := by
    refine .opens hr ⟨hc, hg⟩ fun hr => ?_
    have hsub := List.subset_append_left h [.comes ⟨n, .callClosure c given, m⟩]
    cases n with
    | zero => exact .exhausted hr
    | succ n => exact ih.entering (by omega) hr (hc.mono hsub) fun a ha => (hg a ha).mono hsub
  execute {n h m} hn hr s := by
    refine .opens hr trivial fun hr => ?_
    cases n with
    | zero => exact .exhausted hr
    | succ n =>
      exact ih.executing (by omega) rfl (List.mem_append_right _ (List.mem_singleton_self _)) hr
  executeAll {n h m} hn hr ss := by
    refine .opens hr trivial fun hr => ?_
    cases n with
    | zero => exact .exhausted hr
    | succ n =>
      cases ss with
      | nil => exact .done hr nofun
      | cons s ss =>
        refine .first (ih.execute (by omega) hr s) fun _ completion m₁ _ hr₁ hc => ?_
        cases completion with
        | normal => exact ih.executeAll (by omega) hr₁ ss
        | broke => exact .done hr₁ nofun
        | returned v => exact .done hr₁ hc

end Telling

/-- **Every run continues the chronicle with its log**, to whatever depth. -/
theorem tells (k : Nat) : Telling k := by
  induction k with
  | zero => constructor <;> intros <;> omega
  | succ k ih => exact ih.succ

/-- So do whole programs. -/
theorem tells_program {k n : Nat} {h : List Event} {m : Machine} (ss : List Stmt) {last : Option Value}
    (hk : n + ss.length < k) (hr : Reached h m) (hlast : ∀ v ∈ last, v.Known h) :
    Tells k h [.comes ⟨n, .program ss last, m⟩] (runAll n ss last m) fun h last =>
      ∀ v ∈ last, v.Known h := by
  induction ss generalizing k h m last with
  | nil =>
    obtain ⟨k, rfl⟩ : ∃ j, k = j + 1 := ⟨k - 1, by omega⟩
    refine .opens hr hlast fun hr => ?_
    rw [Moment.inside_program_nil]
    exact .done hr fun v hv => (hlast v hv).mono (List.subset_append_left _ _)
  | cons s ss ih =>
    obtain ⟨k, rfl⟩ : ∃ j, k = j + 1 := ⟨k - 1, by omega⟩
    have hn : n < k := by
      simp only [List.length_cons] at hk
      omega
    have hrest : n + ss.length < k := by
      simp only [List.length_cons] at hk
      omega
    refine .opens hr hlast fun hr => ?_
    have hlast' : ∀ v ∈ last, v.Known (h ++ [.comes ⟨n, .program (s :: ss) last, m⟩]) := fun v hv =>
      (hlast v hv).mono (List.subset_append_left _ _)
    -- The value of a shown expression becomes the last one, any other statement leaves it.
    by_cases hs : ∃ e, s = .value e
    · obtain ⟨e, rfl⟩ := hs
      rw [Moment.inside_shown]
      refine .first ((tells k).evaluate hn hr e) fun h₁ v m₁ _ hr₁ hv => ih hrest hr₁ fun w hw => ?_
      cases hw
      exact hv
    · have hs' : ∀ e, s ≠ .value e := fun e he => hs ⟨e, he⟩
      have hrun : runAll n (s :: ss) last = (do
          let _ ← execute n s
          runAll n ss last) := by
        rw [runAll]
        exact hs'
      rw [Moment.inside_statement n hs', hrun]
      refine .first ((tells k).execute hn hr s) fun h₁ _ m₁ hsub hr₁ _ => ih hrest hr₁ fun v hv => ?_
      exact (hlast' v hv).mono hsub

end Lox
