import Lox.Eval
import Lox.Proofs.Copies.Agrees
import Lox.Proofs.Renaming.Values

/-!
  Running a renamed program.

  A program and the renamed one do the same on machines that are related: they end in the same way, with
  values that are related or errors at tokens that are the same but for the name, on machines that are related
  again.  Meanwhile frames have been made, and each got the mark of the scope that it was made for; so what an
  action leaves is related among more frames than there were.

  * `StoreAccord` and `Accord` say this of two actions on stores and on machines.  Both are kept by what comes
    behind (`Accord.bind`), where the second actions start among the frames that there are by then; so every
    fact about what is at hand is carried on to more frames (the lemmas named `mono`).
  * Then there is one lemma for each small step of the evaluator: looking up and assigning names, making
    functions, binding and finding methods, defining parameters, declaring classes, calling natives.  A name is
    used either at an occurrence with a distance, and the mark of the frame there tells how it is called, or it
    is a global, and no global is renamed (`Meet`).
  * `RunsRenamed n` collects what is to be shown of the functions of the evaluator with fuel `n`, and
    `RunsRenamed.succ` is the step of the induction: it goes as the evaluator does, one case for each
    constructor of the syntax tree.
-/

namespace Lox

open Renaming (classMarks)

/-! ## Endings -/

/-- The tokens are the same, but for the name of the variable. -/
def Renaming.Stands (r : Renaming) (t t' : Token) : Prop :=
  t' = t ∨ t.lexeme = r.old ∧ t' = { t with lexeme := r.new }

/-- A token that has been renamed stands for the one that it was. -/
theorem Renaming.Tok.stands {r : Renaming} {mark : Bool} {t t' : Token} (h : r.Tok mark t t') :
    r.Stands t t' := by
  rw [h.eq, token]
  split
  · exact .inr ⟨‹_ ∧ _›.2, rfl⟩
  · exact .inl rfl

/-- The errors are the same, at tokens that are the same but for the name of the variable. -/
structure RuntimeError.Renamed (r : Renaming) (e e' : RuntimeError) : Prop where
  fault : e'.fault = e.fault
  token : r.Stands e.token e'.token

namespace Eval

open Machine

/-- The runs have ended in the same way, by when there may be more frames. -/
inductive EndAccord (r : Renaming) (frames marks : List Bool) {α β : Type} (Q : List Bool → α → β → Prop) :
    Ending Machine RuntimeError α → Ending Machine RuntimeError β → Prop where
  | done {frames' a b m m'} : frames <+: frames' → Q frames' a b → m.Akin r frames' marks m' →
    EndAccord r frames marks Q (.done a m) (.done b m')
  | failed {frames' e e' m m'} : frames <+: frames' → e.Renamed r e' → m.Akin r frames' marks m' →
    EndAccord r frames marks Q (.failed e m) (.failed e' m')
  | exhausted : EndAccord r frames marks Q .exhausted .exhausted

/-- On machines that are related, among these frames or more, the actions end in the same way.  The place
    that is run has the marks. -/
def Accord (r : Renaming) (frames marks : List Bool) {α β : Type} (Q : List Bool → α → β → Prop)
    (x : Eval α) (y : Eval β) : Prop :=
  ∀ frames', frames <+: frames' → ∀ m m', m.Akin r frames' marks m' → EndAccord r frames' marks Q (x m) (y m')

/-- On stores with these frames the steps end in the same way.  They make no frame. -/
abbrev StoreAccord (r : Renaming) (frames : List Bool) {α β : Type} (Q : α → β → Prop) (x : StoreStep α)
    (y : StoreStep β) : Prop :=
  Action.Agrees False (Store.Akin r frames) (· = ·) Q x y

/-- The statements were completed in the same way. -/
inductive CompletionAkin (r : Renaming) (frames : List Bool) : Completion → Completion → Prop where
  | normal : CompletionAkin r frames .normal .normal
  | broke : CompletionAkin r frames .broke .broke
  | returned {v v'} : v.Akin r frames v' → CompletionAkin r frames (.returned v) (.returned v')

variable {r : Renaming} {frames frames' marks : List Bool}

/-! ## Steps on the store

  A frame that is marked has the new name in place of the old one, all others are the same. -/

namespace StoreAccord

variable {f : Nat} {mark : Bool} {slot slot' : Option Value} {v v' : Value}

/-- A name is entered in a frame of this mark, under the name that it has there. -/
theorem define (hf : frames[f]? = some mark) (x : String)
    (h : Option.Rel (Value.Akin r frames) slot slot') :
    StoreAccord r frames (fun _ _ => True) (Store.define f x slot)
      (Store.define f (r.name mark x) slot') := by
  intro s s' hs
  -- The slot is missing in both, empty in both, or has values that are related.
  have hslot := hs.slots f mark hf x
  unfold Store.define
  generalize s.slot? f x = old, s'.slot? f (r.name mark x) = old' at hslot
  cases hslot with
  | none => exact .done trivial (hs.put hf x h)
  | some _ => exact .failed rfl hs

/-- A name is read from a frame of this mark. -/
theorem get (hf : frames[f]? = some mark) (x : String) :
    StoreAccord r frames (Value.Akin r frames) (Store.get f x) (Store.get f (r.name mark x)) := by
  intro s s' hs
  have hslot := hs.slots f mark hf x
  unfold Store.get
  generalize s.slot? f x = slot, s'.slot? f (r.name mark x) = slot' at hslot
  cases hslot with
  | none => exact .failed rfl hs
  | some hslot =>
    cases hslot with
    | none => exact .failed rfl hs
    | some hv => exact .done hv hs

/-- A name that the frame has gets another value. -/
theorem assign (hf : frames[f]? = some mark) (x : String) (h : v.Akin r frames v') :
    StoreAccord r frames (fun _ _ => True) (Store.assign f x v) (Store.assign f (r.name mark x) v') := by
  intro s s' hs
  have hslot := hs.slots f mark hf x
  unfold Store.assign
  generalize s.slot? f x = old, s'.slot? f (r.name mark x) = old' at hslot
  cases hslot with
  | none => exact .failed rfl hs
  | some _ => exact .done trivial (hs.put hf x (.some h))

variable {env : Env}

/-- The frame that lies a distance outward is the same, and has the mark that is there. -/
theorem ancestor (henv : env.Marked frames marks) (d : Nat) :
    StoreAccord r frames (fun f f' => f = f' ∧ frames[f]? = some (markAt marks (some d)))
      (Store.ancestor env d) (Store.ancestor env d) := by
  unfold Store.ancestor
  cases hf : env.ancestor? d with
  | some f => exact .pure ⟨rfl, henv.ancestor hf⟩
  | none => exact .fail rfl

/-- The frame at a distance has the mark at that distance. -/
theorem getAt (henv : env.Marked frames marks) (d : Nat) (x : String) :
    StoreAccord r frames (Value.Akin r frames) (Store.getAt env d x)
      (Store.getAt env d (r.name (markAt marks (some d)) x)) := by
  refine (ancestor henv d).bind ?_
  rintro f _ ⟨rfl, hf⟩
  exact get hf x

/-- The same for an assignment at a distance. -/
theorem assignAt (henv : env.Marked frames marks) (d : Nat) (x : String) (h : v.Akin r frames v') :
    StoreAccord r frames (fun _ _ => True) (Store.assignAt env d x v)
      (Store.assignAt env d (r.name (markAt marks (some d)) x) v') := by
  refine (ancestor henv d).bind ?_
  rintro f _ ⟨rfl, hf⟩
  exact assign hf x h

end StoreAccord

/-! ## Putting actions together -/

namespace Accord

variable {α β γ δ : Type} {P : List Bool → α → β → Prop} {Q : List Bool → γ → δ → Prop}

/-- What is returned is related among all frames that there may be by then. -/
theorem pure {a : α} {b : β} (h : ∀ frames', frames <+: frames' → P frames' a b) :
    Accord r frames marks P (Pure.pure a) (Pure.pure b) :=
  fun frames' hle _ _ hm => .done List.prefix_rfl (h frames' hle) hm

/-- Both fail. -/
theorem fail {e e' : RuntimeError} (h : e.Renamed r e') :
    Accord r frames marks P (.fail e) (.fail e') :=
  fun _ _ _ _ hm => .failed List.prefix_rfl h hm

/-- Both run out of fuel. -/
theorem outOfFuel : Accord r frames marks P .outOfFuel .outOfFuel := fun _ _ _ _ _ => .exhausted

/-- What is seen of related machines is related. -/
theorem read {view : Machine → α} {view' : Machine → β}
    (h : ∀ frames', frames <+: frames' → ∀ m m', m.Akin r frames' marks m' →
      P frames' (view m) (view' m')) :
    Accord r frames marks P (.read view) (.read view') :=
  fun frames' hle m m' hm => .done List.prefix_rfl (h frames' hle m m' hm) hm

/-- What comes behind starts among the frames that there are by then. -/
theorem bind {x : Eval α} {y : Eval β} {f : α → Eval γ} {g : β → Eval δ}
    (hx : Accord r frames marks P x y)
    (hf : ∀ frames', frames <+: frames' → ∀ a b, P frames' a b → Accord r frames' marks Q (f a) (g b)) :
    Accord r frames marks Q (x >>= f) (y >>= g) := by
  intro frames₁ hle m m' hm
  have hends := hx frames₁ hle m m' hm
  generalize hxm : x m = ending, hym : y m' = ending' at hends
  -- Where the first actions have ended the second go on, from machines related among `frames₂`; any other end
  -- is the end of both.
  cases hends with
  | @done frames₂ a b n n' hle' hab hn =>
    rw [Action.bind_of_done hxm, Action.bind_of_done hym]
    have hrest := hf frames₂ (hle.trans hle') a b hab frames₂ List.prefix_rfl n n' hn
    generalize f a n = ending, g b n' = ending' at hrest
    cases hrest with
    | done hle'' hq hm => exact .done (hle'.trans hle'') hq hm
    | failed hle'' he hm => exact .failed (hle'.trans hle'') he hm
    | exhausted => exact .exhausted
  | failed hle' he hn =>
    rw [Action.bind_of_failed hxm, Action.bind_of_failed hym]
    exact .failed hle' he hn
  | exhausted =>
    rw [Action.bind_of_exhausted hxm, Action.bind_of_exhausted hym]
    exact .exhausted

/-- What is made of related results is related. -/
theorem map {x : Eval α} {y : Eval β} {f : α → γ} {g : β → δ} (hx : Accord r frames marks P x y)
    (hf : ∀ frames' a b, P frames' a b → Q frames' (f a) (g b)) :
    Accord r frames marks Q (f <$> x) (g <$> y) := by
  -- By `bind` and `pure` the answers would have to be related among still more frames.
  rw [map_eq_pure_bind, map_eq_pure_bind]
  intro frames₁ hle m m' hm
  have hends := hx frames₁ hle m m' hm
  generalize hxm : x m = ending, hym : y m' = ending' at hends
  cases hends with
  | done hle' hab hn =>
    rw [Action.bind_of_done hxm, Action.bind_of_done hym]
    exact .done hle' (hf _ _ _ hab) hn
  | failed hle' he hn =>
    rw [Action.bind_of_failed hxm, Action.bind_of_failed hym]
    exact .failed hle' he hn
  | exhausted =>
    rw [Action.bind_of_exhausted hxm, Action.bind_of_exhausted hym]
    exact .exhausted

/-! ## Steps on the machine

  At a distance both sides come to the frame with the same mark, and so to the slot for the name. -/

variable {t t' : Token}

/-- A fault at tokens that stand for each other. -/
theorem failAt (ht : r.Stands t t') (fault : RuntimeFault) :
    Accord r frames marks P (failAt t fault) (failAt t' fault) :=
  .fail ⟨rfl, ht⟩

/-- A step of the store, whose fault is reported at the token. -/
theorem atToken (ht : r.Stands t t') {x : StoreStep α} {y : StoreStep β}
    (h : ∀ frames', frames <+: frames' → StoreAccord r frames' (P frames') x y) :
    Accord r frames marks P (atToken t x) (atToken t' y) := by
  rintro frames' hle ⟨s, env, found, host⟩ ⟨s', env', found', host'⟩ ⟨hs, henv, hmarked, hhost, hr, hfound⟩
  have hends := h frames' hle s s' hs
  simp only [Machine.atToken]
  generalize x s = ending, y s' = ending' at hends ⊢
  cases hends with
  | done hq hs => exact .done List.prefix_rfl hq ⟨hs, henv, hmarked, hhost, hr, hfound⟩
  | failed he hs =>
    cases he
    exact .failed List.prefix_rfl ⟨rfl, ht⟩ ⟨hs, henv, hmarked, hhost, hr, hfound⟩
  | exhausted => exact .exhausted
  | short h => exact h.elim

/-- What makes something may make a frame. -/
theorem make {x : Store → α × Store} {y : Store → β × Store}
    (h : ∀ frames', frames <+: frames' → ∀ s s', s.Akin r frames' s' → ∃ frames'', frames' <+: frames'' ∧
      P frames'' (x s).1 (y s').1 ∧ (x s).2.Akin r frames'' (y s').2) :
    Accord r frames marks P (make x) (make y) := by
  rintro frames' hle ⟨s, env, found, host⟩ ⟨s', env', found', host'⟩ ⟨hs, henv, hmarked, hhost, hr, hfound⟩
  obtain ⟨frames'', hle', hp, hs'⟩ := h frames' hle s s' hs
  exact .done hle' hp ⟨hs', henv, hmarked.mono hle', hhost, hr, hfound⟩

/-- A frame for a scope with the mark is put inside a chain. -/
theorem push {env : Env} {marks' : List Bool} (henv : env.Marked frames marks') (mark : Bool)
    {table table' : Table (Option Value)}
    (h : ∀ frames', frames <+: frames' → ∀ x,
      Option.Rel (Option.Rel (Value.Akin r frames')) (table.get? x) (table'.get? (r.name mark x))) :
    Accord r frames marks (fun frames' inner inner' => inner = inner' ∧ inner.Marked frames' (mark :: marks'))
      (Machine.make (Store.push env table)) (Machine.make (Store.push env table')) := by
  refine make fun frames' hle s s' hs => ?_
  -- The frame comes to the end of the list, in both stores in the same place.
  have hle' := List.prefix_append frames' [mark]
  obtain ⟨hsame, hpushed⟩ := hs.push env mark (h _ (hle.trans hle'))
  refine ⟨_, hle', ⟨hsame.symm, ?_⟩, hpushed⟩
  show (env.extend s.frames.size).Marked _ _
  rw [hs.size]
  exact (henv.mono hle).extend mark

/-- A new frame for a scope, with any mark. -/
theorem pushEmpty {env : Env} {marks' : List Bool} (henv : env.Marked frames marks') (mark : Bool) :
    Accord r frames marks (fun frames' inner inner' => inner = inner' ∧ inner.Marked frames' (mark :: marks'))
      (Machine.make (Store.push env .empty)) (Machine.make (Store.push env .empty)) :=
  push henv mark fun _ _ _ => .none

/-- A frame around methods, which declares no variable, holds one value. -/
theorem pushHolding {env : Env} {marks' : List Bool} (henv : env.Marked frames marks') (x : String)
    {v v' : Value} (hv : v.Akin r frames v') :
    Accord r frames marks (fun frames' inner inner' => inner = inner' ∧ inner.Marked frames' (false :: marks'))
      (Machine.make (Store.push env (Table.empty.insert x (some v))))
      (Machine.make (Store.push env (Table.empty.insert x (some v')))) :=
  push henv false fun _ hle y => Table.Related.empty.insert x (.some (hv.mono hle)) y

theorem newObject :
    Accord r frames marks (fun _ i i' => i = i') (Machine.make Store.newObject)
      (Machine.make Store.newObject) :=
  make fun frames' _ _ _ hs => ⟨frames', List.prefix_rfl, hs.newObject.1.symm, hs.newObject.2⟩

theorem newIdentity :
    Accord r frames marks (fun _ i i' => i = i') (Machine.make Store.newIdentity)
      (Machine.make Store.newIdentity) :=
  make fun frames' _ _ _ hs => ⟨frames', List.prefix_rfl, hs.newIdentity.1.symm, hs.newIdentity.2⟩

/-- What gives the same value gives it on both sides. -/
theorem liftAt {result : Except RuntimeFault Value} (hground : ∀ v, result = .ok v → v.Ground) :
    Accord r frames marks (Value.Akin r) (liftAt t result) (liftAt t result) := by
  cases result with
  | ok v => exact .pure fun _ _ => (hground v rfl).akin
  | error fault => exact failAt (.inl rfl) fault

/-- Both machines are in the same environment, whose frames have these marks. -/
theorem env :
    Accord r frames marks (fun frames' e e' => e = e' ∧ e.Marked frames' marks) (.read Machine.env)
      (.read Machine.env) :=
  .read fun _ _ _ _ hm => ⟨hm.env.symm, hm.marked⟩

/-- Inside another chain of frames, and back in this one however it ends. -/
theorem within {env : Env} {marks' : List Bool} (henv : env.Marked frames marks') {x : Eval α} {y : Eval β}
    (h : Accord r frames marks' P x y) : Accord r frames marks P (within env x) (within env y) := by
  intro frames' hle m m' hm
  have hinner : Machine.Akin r frames' marks' { m with env := env } { m' with env := env } :=
    ⟨hm.store, rfl, henv.mono hle, hm.host, hm.resolution, hm.found⟩
  have hends := h frames' hle _ _ hinner
  unfold Machine.within Action.keeping
  rw [Action.bind_of_done (show Action.update _ m = .done () { m with env := env } from rfl),
    Action.bind_of_done (show Action.update _ m' = .done () { m' with env := env } from rfl)]
  generalize x { m with env := env } = ending, y { m' with env := env } = ending' at hends
  cases hends with
  | done hle' hq hn =>
    exact .done hle' hq ⟨hn.store, hm.env, hm.marked.mono hle', hn.host, hn.resolution, hn.found⟩
  | failed hle' he hn =>
    exact .failed hle' he ⟨hn.store, hm.env, hm.marked.mono hle', hn.host, hn.resolution, hn.found⟩
  | exhausted => exact .exhausted

/-! ### Names -/

/-- The occurrences are found at the same distance, under the names that their declaration has. -/
structure Meet (r : Renaming) (marks : List Bool) (ref ref' : Ref) : Prop where
  id : ref'.id = ref.id
  name : ref'.name.lexeme = r.name (markAt marks r.found[ref.id]?) ref.name.lexeme
  token : r.Stands ref.name ref'.name

/-- An occurrence of a name means a declaration with the same mark. -/
theorem Meet.of_refs {ref ref' : Ref} (h : r.Refs marks ref ref') : Meet r marks ref ref' :=
  ⟨h.id, h.token.lexeme, h.token.stands⟩

/-- Where the name is `this` nothing is renamed. -/
theorem Meet.of_this (hp : r.Plain) {ref : Ref} (h : ref.name.lexeme = "this") : Meet r marks ref ref :=
  ⟨rfl, by rw [h, hp.name_this], .inl rfl⟩

/-- Nor where it is `super`. -/
theorem Meet.of_super (hp : r.Plain) {ref : Ref} (h : ref.name.lexeme = "super") : Meet r marks ref ref :=
  ⟨rfl, by rw [h, hp.name_super], .inl rfl⟩

variable {ref ref' : Ref} {v v' : Value}

/-- Both look up the distance under the same number. -/
theorem distance? (h : ref'.id = ref.id) :
    Accord r frames marks (fun _ d d' => d = d' ∧ d = r.found[ref.id]?) (distance? ref)
      (distance? ref') := by
  refine .read fun _ _ m m' hm => ⟨?_, hm.found ref.id⟩
  rw [hm.resolution, h]

/-- With a distance the mark of the frame there says how the name is called; without one it is a global. -/
theorem lookUp (h : Meet r marks ref ref') :
    Accord r frames marks (Value.Akin r) (lookUp ref) (lookUp ref') := by
  have hname := h.name
  refine env.bind ?_
  rintro frames₁ - e _ ⟨rfl, he⟩
  refine (distance? h.id).bind ?_
  rintro frames₂ hle d _ ⟨rfl, hd⟩
  -- The distance leads to the frame of the scope that declares the name, whose mark says how it is called.
  rw [← hd] at hname
  cases d with
  | some d =>
    refine atToken h.token fun frames₃ hle' => ?_
    rw [hname]
    exact .getAt (he.mono (hle.trans hle')) d _
  | none =>
    refine atToken h.token fun frames₃ _ s s' hs => ?_
    rw [hname]
    exact StoreAccord.get hs.globals _ s s' hs

/-- As `lookUp` does. -/
theorem assign (h : Meet r marks ref ref') (hv : v.Akin r frames v') :
    Accord r frames marks (fun _ _ _ => True) (assign ref v) (assign ref' v') := by
  have hname := h.name
  refine env.bind ?_
  rintro frames₁ hle₁ e _ ⟨rfl, he⟩
  refine (distance? h.id).bind ?_
  rintro frames₂ hle₂ d _ ⟨rfl, hd⟩
  rw [← hd] at hname
  cases d with
  | some d =>
    refine atToken h.token fun frames₃ hle₃ => ?_
    rw [hname]
    exact .assignAt (he.mono (hle₂.trans hle₃)) d _ (hv.mono (hle₁.trans (hle₂.trans hle₃)))
  | none =>
    refine atToken h.token fun frames₃ hle₃ s s' hs => ?_
    rw [hname]
    exact StoreAccord.assign hs.globals _ (hv.mono (hle₁.trans (hle₂.trans hle₃))) s s' hs

/-- Inside of all scopes the name goes to the innermost frame, with its mark, and else to the globals. -/
theorem define (ht : r.Tok (marks.headD false) t t') {slot slot' : Option Value}
    (h : Option.Rel (Value.Akin r frames) slot slot') :
    Accord r frames marks (fun _ _ _ => True) (define t slot) (define t' slot') := by
  refine env.bind ?_
  rintro frames₁ hle₁ e _ ⟨rfl, he⟩
  refine atToken ht.stands fun frames₂ hle₂ => ?_
  rw [ht.lexeme]
  exact .define (he.mono hle₂).frame _ (related_imp h fun _ _ hv => hv.mono (hle₁.trans hle₂))

/-! ### Functions and instances -/

variable {c c' : Closure}

/-- A function is a new value with the chain of frames at hand. -/
theorem functionValue (h : c.Akin r frames [] c') :
    Accord r frames marks (Value.Akin r) (functionValue c) (functionValue c') := by
  refine newIdentity.bind ?_
  rintro frames₁ hle identity _ rfl
  exact .pure fun _ hle' => .function identity (h.mono (hle.trans hle'))

/-- A method that is bound to an instance has been put in the scope of the instance. -/
theorem bindThis (h : c.Akin r frames [false] c') (hv : v.Akin r frames v') :
    Accord r frames marks (fun frames' => Closure.Akin r frames' []) (bindThis c v) (bindThis c' v') := by
  obtain ⟨d, around, isInitializer⟩ := c
  obtain ⟨d', around', isInitializer'⟩ := c'
  obtain ⟨henv, hinit, hmarked, hdeclaration⟩ := h
  cases henv
  refine (pushHolding hmarked "this" hv).bind ?_
  rintro frames₁ hle env _ ⟨rfl, henv⟩
  exact .pure fun _ hle' => .intro rfl hinit (henv.mono hle') hdeclaration

/-- A method bound to its instance: the frame of `this` has no mark. -/
theorem bound (h : c.Akin r frames [false] c') (hv : v.Akin r frames v') :
    Accord r frames marks (Value.Akin r) (Machine.bindThis c v >>= Machine.functionValue)
      (Machine.bindThis c' v' >>= Machine.functionValue) :=
  (bindThis h hv).bind fun _ _ _ _ hbound => functionValue hbound

/-- Properties are not renamed: a field is found under its name, and else a method. -/
theorem getProperty (hv : v.Akin r frames v') (t : Token) :
    Accord r frames marks (Value.Akin r) (getProperty v t) (getProperty v' t) := by
  cases hv with
  | @object identity c c' hc =>
    have hfield : Accord r frames marks (fun frames' => Option.Rel (Value.Akin r frames'))
        (.read (·.store.field? identity t.lexeme)) (.read (·.store.field? identity t.lexeme)) :=
      .read fun _ _ _ _ hm => hm.store.field? identity t.lexeme
    refine hfield.bind fun frames₁ hle field field' hrel => ?_
    cases hrel with
    | some hrel => exact .pure fun _ hle' => hrel.mono hle'
    | none =>
      have hmethod := (hc.mono hle).method? t.lexeme
      dsimp only
      generalize c.method? t.lexeme = found, c'.method? t.lexeme = found' at hmethod
      cases hmethod with
      | none => exact failAt (.inl rfl) _
      | some hm =>
        dsimp only
        split
        · exact failAt (.inl rfl) _
        · exact bound hm (.object identity (hc.mono hle))
  | _ => exact failAt (.inl rfl) _

/-- Nor are fields. -/
theorem setField (object : Nat) (t : Token) (hv : v.Akin r frames v') :
    Accord r frames marks (fun _ _ _ => True) (setField object t v) (setField object t v') :=
  fun _ hle _ _ hm => .done List.prefix_rfl trivial
    { hm with store := hm.store.putField object t.lexeme (hv.mono hle) }

/-- The methods of the superclass have the same names, and `this` is found one frame nearer than `super`. -/
theorem superMethod (hp : r.Plain) (h : Meet r marks ref ref) (t : Token) :
    Accord r frames marks (Value.Akin r) (superMethod ref t) (superMethod ref t) := by
  have hname := h.name
  refine env.bind ?_
  rintro frames₁ - e _ ⟨rfl, he⟩
  refine (distance? rfl).bind ?_
  rintro frames₂ hle₂ d _ ⟨rfl, hd⟩
  cases d with
  | none => exact failAt (.inl rfl) _
  | some d =>
    rw [← hd] at hname
    -- Neither name is renamed, so each is found in its frame under its own name.
    have hsuper : ∀ frames', e.Marked frames' marks → Accord r frames' marks (Value.Akin r)
        (Machine.atToken ref.name (Store.getAt e d ref.name.lexeme))
        (Machine.atToken ref.name (Store.getAt e d ref.name.lexeme)) := by
      intro frames' he
      refine atToken (.inl rfl) fun _ hle => ?_
      have hget := StoreAccord.getAt (r := r) (he.mono hle) d ref.name.lexeme
      rwa [← hname] at hget
    have hthis : ∀ frames', e.Marked frames' marks → Accord r frames' marks (Value.Akin r)
        (Machine.atToken (.named "this" ref.name.line) (Store.getAt e (d - 1) "this"))
        (Machine.atToken (.named "this" ref.name.line) (Store.getAt e (d - 1) "this")) := by
      intro frames' he
      refine atToken (.inl rfl) fun _ hle => ?_
      have hget := StoreAccord.getAt (r := r) (he.mono hle) (d - 1) "this"
      rwa [hp.name_this] at hget
    refine (hsuper frames₂ (he.mono hle₂)).bind fun frames₃ hle₃ v v' hv => ?_
    cases hv with
    | @classOf c c' hc =>
      refine (hthis frames₃ (he.mono (hle₂.trans hle₃))).bind fun frames₄ hle₄ u u' hu => ?_
      cases hu with
      | @object identity k k' hk =>
        have hmethod := (hc.mono hle₄).method? t.lexeme
        dsimp only
        generalize c.method? t.lexeme = found, c'.method? t.lexeme = found' at hmethod
        cases hmethod with
        | none => exact failAt (.inl rfl) _
        | some hm => exact bound hm (.object identity hk)
      | _ => exact failAt (.inl rfl) _
    | _ => exact failAt (.inl rfl) _

/-- By induction on the parameters, as far as there are arguments. -/
theorem defineParams {f : Nat} {mark : Bool} (hf : frames[f]? = some mark) {params params' : List Token}
    {given given' : List Value} (h : List.Forall₂ (r.Tok mark) params params')
    (hv : List.Forall₂ (Value.Akin r frames) given given') :
    Accord r frames marks (fun _ _ _ => True) (defineParams f params given)
      (defineParams f params' given') := by
  induction h generalizing frames given given' with
  | nil => cases hv <;> exact .pure fun _ _ => trivial
  | @cons t t' _ _ ht _ ih =>
    cases hv with
    | nil => exact .pure fun _ _ => trivial
    | cons hv hrest =>
      -- The parameter is called as the frame of the function has it.
      rw [Machine.defineParams, Machine.defineParams]
      refine bind (P := fun _ _ _ => True) (atToken ht.stands fun _ hle => ?_) fun _ hle _ _ _ =>
        ih (mark_kept hle hf) (hrest.imp fun _ _ hv => hv.mono hle)
      rw [ht.lexeme]
      exact .define (mark_kept hle hf) _ (.some (hv.mono hle))

/-- The superclass is looked up like any variable. -/
theorem superclassOf (h : Meet r marks ref ref') :
    Accord r frames marks (Class.Akin r) (superclassOf ref) (superclassOf ref') := by
  refine (lookUp h).bind fun _ _ v v' hv => ?_
  cases hv with
  | classOf hc => exact .pure fun _ hle => hc.mono hle
  | _ => exact failAt h.token _

/-- The methods of a renamed class make a table that is related. -/
theorem methodTable {env : Env} (henv : env.Marked frames marks) {ds ds' : List FunctionDecl}
    (h : Renamed r (false :: marks) (.methods ds) (.methods ds')) :
    Table.Related (Closure.Akin r frames [false]) (methodTable ds env) (methodTable ds' env) := by
  -- Along the methods, for any tables that those before them have made.
  have hinsert : ∀ ds ds', Renamed r (false :: marks) (.methods ds) (.methods ds') →
      ∀ table table' : Table Closure, Table.Related (Closure.Akin r frames [false]) table table' →
        Table.Related (Closure.Akin r frames [false])
          (ds.foldl (fun table d => table.insert d.displayName ⟨d, env, d.isInitializer⟩) table)
          (ds'.foldl (fun table d => table.insert d.displayName ⟨d, env, d.isInitializer⟩) table') := by
    intro ds
    induction ds with
    | nil =>
      intro ds' h table table' htable
      cases h
      exact htable
    | cons d ds ih =>
      intro ds' h table table' htable
      cases h with
      | methods hd hds =>
        refine ih _ hds _ _ ?_
        dsimp only
        rw [hd.displayName_eq]
        exact htable.insert _ (.intro rfl hd.isInitializer_eq henv hd.of_kind)
  exact hinsert ds ds' h _ _ .empty

/-- The frames around methods have the marks of the scopes around them, but for that of an instance. -/
theorem aroundMethods {env : Env} (henv : env.Marked frames marks) {parent parent' : Option Class}
    (h : Option.Rel (Class.Akin r frames) parent parent') :
    Accord r frames marks
      (fun frames' e e' => e = e' ∧ e.Marked frames' ((classMarks parent.isSome).tail ++ marks))
      (aroundMethods env parent) (aroundMethods env parent') := by
  cases h with
  | none => exact .pure fun _ hle => ⟨rfl, henv.mono hle⟩
  | some hc => exact pushHolding henv "super" (.classOf hc)

/-- The name of a class is not renamed, its methods are functions of renamed texts. -/
theorem declareClass (ht : r.Tok (marks.headD false) t t) {superclass superclass' : Option Ref}
    (h : Option.Rel (Meet r marks) superclass superclass') {ds ds' : List FunctionDecl}
    (hds : Renamed r (classMarks superclass.isSome ++ marks) (.methods ds) (.methods ds')) :
    Accord r frames marks (fun _ _ _ => True) (declareClass t superclass ds)
      (declareClass t superclass' ds') := by
  have hparent : Accord r frames marks
      (fun frames' parent parent' => parent.isSome = superclass.isSome ∧
        Option.Rel (Class.Akin r frames') parent parent')
      (superclass.elim (Pure.pure none) fun ref => some <$> Machine.superclassOf ref)
      (superclass'.elim (Pure.pure none) fun ref => some <$> Machine.superclassOf ref) := by
    cases h with
    | none => exact .pure fun _ _ => ⟨rfl, .none⟩
    | some h => exact (superclassOf h).map fun _ _ _ hc => ⟨rfl, .some hc⟩
  refine hparent.bind ?_
  rintro frames₁ - parent parent' ⟨hsome, hparents⟩
  refine (define ht .none).bind fun frames₂ hle₂ _ _ _ => env.bind ?_
  rintro frames₃ hle₃ e _ ⟨rfl, he⟩
  have hparents₃ := related_imp hparents fun _ _ hc => Class.Akin.mono hc (hle₂.trans hle₃)
  refine (aroundMethods he hparents₃).bind ?_
  rintro frames₄ hle₄ around _ ⟨rfl, haround⟩
  refine newIdentity.bind ?_
  rintro frames₅ hle₅ identity _ rfl
  rw [hsome] at haround
  have hclass : ∀ frames', frames₅ <+: frames' → Class.Akin r frames'
      ⟨⟨identity, t.lexeme, Machine.methodTable ds around⟩, parent.elim [] Class.chain⟩
      ⟨⟨identity, t.lexeme, Machine.methodTable ds' around⟩, parent'.elim [] Class.chain⟩ := by
    intro frames' hle
    have hle' := hle₄.trans (hle₅.trans hle)
    refine .cons ⟨rfl, rfl, methodTable (haround.mono (hle₅.trans hle)) hds⟩ ?_
    cases hparents₃ with
    | none => exact .nil
    | some hc => exact Class.Akin.mono hc hle'
  -- The class is put where it was declared, in the frame that was current then.
  refine atToken (.inl rfl) fun frames₆ hle₆ => ?_
  have hassign := StoreAccord.assign (he.mono (hle₄.trans (hle₅.trans hle₆))).frame t.lexeme
    (.classOf (hclass frames₆ hle₆))
  rwa [← ht.lexeme] at hassign

/-- A native function sees the host and its arguments, and answers with a constant. -/
theorem callNative (t : Token) (native : Native) {given given' : List Value}
    (h : List.Forall₂ (Value.Akin r frames) given given') :
    Accord r frames marks (Value.Akin r) (callNative t native given) (callNative t native given') := by
  rintro frames' hle ⟨s, env, found, host⟩ ⟨s', env', found', host'⟩ ⟨hs, henv, hmarked, hhost, hr, hfound⟩
  cases hhost
  have hground := @nativeAnswer_ground given host native
  simp only [Machine.callNative, nativeAnswer_akin h]
  generalize nativeAnswer given host native = answer at hground
  obtain ⟨result, behind⟩ := answer
  cases result with
  | ok v => exact .done List.prefix_rfl (hground rfl).akin ⟨hs, henv, hmarked, rfl, hr, hfound⟩
  | error => exact .failed List.prefix_rfl ⟨rfl, .inl rfl⟩ ⟨hs, henv, hmarked, rfl, hr, hfound⟩

/-- An initializer answers with its instance, any other function with what it returned. -/
theorem answer (hp : r.Plain) (h : c.Akin r frames [] c') {completion completion' : Completion}
    (hc : CompletionAkin r frames completion completion') :
    Accord r frames marks (Value.Akin r) (answer c completion) (answer c' completion') := by
  obtain ⟨henv, hinit, hmarked, hdeclaration⟩ := h
  unfold Eval.answer
  rw [hinit]
  split
  · -- An initializer gives its instance, however its body was completed.
    rw [henv, hdeclaration.function_keyword]
    refine atToken (.inl rfl) fun _ hle => ?_
    have hget := StoreAccord.get (r := r) (hmarked.mono hle).frame "this"
    rwa [hp.name_this] at hget
  · cases hc with
    | returned hv => exact .pure fun _ hle => hv.mono hle
    | _ => exact .pure fun _ _ => .nil

end Accord

/-! ## The rules

  By induction on the fuel, one lemma for each function of the evaluator. -/

/-- What the evaluator does with so much fuel accords, for all renamed texts and all values that are
    related. -/
structure RunsRenamed (r : Renaming) (fuel : Nat) : Prop where
  evaluate : ∀ {frames marks e e'}, Renamed r marks (.expr e) (.expr e') →
    Accord r frames marks (Value.Akin r) (evaluate fuel e) (evaluate fuel e')
  evaluateAll : ∀ {frames marks es es'}, Renamed r marks (.exprs es) (.exprs es') →
    Accord r frames marks (fun frames' => List.Forall₂ (Value.Akin r frames')) (evaluateAll fuel es)
      (evaluateAll fuel es')
  call : ∀ {frames marks v v' paren given given'}, v.Akin r frames v' →
    List.Forall₂ (Value.Akin r frames) given given' →
    Accord r frames marks (Value.Akin r) (call fuel v paren given) (call fuel v' paren given')
  callClosure : ∀ {frames marks c c' given given'}, c.Akin r frames [] c' →
    List.Forall₂ (Value.Akin r frames) given given' →
    Accord r frames marks (Value.Akin r) (callClosure fuel c given) (callClosure fuel c' given')
  execute : ∀ {frames marks s s'}, Renamed r marks (.stmt s) (.stmt s') →
    Accord r frames marks (CompletionAkin r) (execute fuel s) (execute fuel s')
  executeAll : ∀ {frames marks ss ss'}, Renamed r marks (.stmts ss) (.stmts ss') →
    Accord r frames marks (CompletionAkin r) (executeAll fuel ss) (executeAll fuel ss')

namespace RunsRenamed

variable {fuel : Nat}

/-- Without fuel both run out of it at once. -/
theorem zero : RunsRenamed r 0 := by
  constructor <;> intros <;> exact .outOfFuel

/-- Renamed expressions are evaluated alike. -/
theorem evaluate_succ (hp : r.Plain) (ih : RunsRenamed r fuel) {e e' : Expr}
    (h : Renamed r marks (.expr e) (.expr e')) :
    Accord r frames marks (Value.Akin r) (Eval.evaluate (fuel + 1) e) (Eval.evaluate (fuel + 1) e') := by
  cases h with
  | literal => exact .pure fun _ _ => (ofLiteral_ground _).akin
  | grouping h => exact ih.evaluate h
  | unary h =>
    refine (ih.evaluate h).bind fun _ _ v v' hv => ?_
    rw [hv.unary_eq]
    exact Accord.liftAt fun _ => Operator.unary_ground
  | binary ha hb =>
    refine (ih.evaluate ha).bind fun _ _ a a' ha => (ih.evaluate hb).bind fun _ hle b b' hb => ?_
    rw [(ha.mono hle).binary_eq _ hb]
    exact Accord.liftAt fun _ => Operator.binary_ground
  | logical ha hb =>
    refine (ih.evaluate ha).bind fun _ _ a a' ha => ?_
    rw [ha.shortCircuits_eq]
    split
    · exact .pure fun _ hle => ha.mono hle
    · exact ih.evaluate hb
  | ternary hc ht he =>
    refine (ih.evaluate hc).bind fun _ _ a a' ha => ?_
    rw [ha.truthy_eq]
    split
    · exact ih.evaluate ht
    · exact ih.evaluate he
  | name href => exact Accord.lookUp (.of_refs href)
  | assign href h =>
    exact (ih.evaluate h).bind fun _ _ _ _ hv => (Accord.assign (.of_refs href) hv).bind
      fun _ hle _ _ _ => .pure fun _ hle' => hv.mono (hle.trans hle')
  | call hc hes =>
    exact (ih.evaluate hc).bind fun _ _ _ _ hv => (ih.evaluateAll hes).bind fun _ hle _ _ hgiven =>
      ih.call (hv.mono hle) hgiven
  | get ho => exact (ih.evaluate ho).bind fun _ _ _ _ hv => Accord.getProperty hv _
  | set ho he =>
    refine (ih.evaluate ho).bind fun _ _ v v' hv => ?_
    cases hv with
    | object identity _ =>
      exact (ih.evaluate he).bind fun _ _ _ _ hu => (Accord.setField identity _ hu).bind
        fun _ hle _ _ _ => .pure fun _ hle' => hu.mono (hle.trans hle')
    | _ => exact Accord.failAt (.inl rfl) _
  | lambda hd =>
    refine Accord.env.bind ?_
    rintro _ - env _ ⟨rfl, henv⟩
    exact Accord.functionValue (.intro rfl rfl henv hd)
  | this href => exact Accord.lookUp (.of_this hp href)
  | super href => exact Accord.superMethod hp (.of_super hp href) _

/-- So are several of them, one after the other. -/
theorem evaluateAll_succ (ih : RunsRenamed r fuel) {es es' : List Expr}
    (h : Renamed r marks (.exprs es) (.exprs es')) :
    Accord r frames marks (fun frames' => List.Forall₂ (Value.Akin r frames'))
      (Eval.evaluateAll (fuel + 1) es) (Eval.evaluateAll (fuel + 1) es') := by
  cases h with
  | noExprs => exact .pure fun _ _ => .nil
  | exprs h hes =>
    exact (ih.evaluate h).bind fun _ _ _ _ hv => (ih.evaluateAll hes).bind fun _ hle _ _ hvs =>
      .pure fun _ hle' => .cons (hv.mono (hle.trans hle')) (hvs.imp fun _ _ h => h.mono hle')

/-- Values that are related are called alike. -/
theorem call_succ (ih : RunsRenamed r fuel) {v v' : Value} {paren : Token} {given given' : List Value}
    (hv : v.Akin r frames v') (hgiven : List.Forall₂ (Value.Akin r frames) given given') :
    Accord r frames marks (Value.Akin r) (Eval.call (fuel + 1) v paren given)
      (Eval.call (fuel + 1) v' paren given') := by
  cases hv with
  | native n => exact Accord.callNative _ n hgiven
  | function _ hc => exact ih.callClosure hc hgiven
  | @classOf c c' hc =>
    refine Accord.newObject.bind ?_
    rintro _ hle identity _ rfl
    have hobject : ∀ {frames'}, frames <+: frames' →
        Value.Akin r frames' (.object identity c) (.object identity c') :=
      fun hle => .object identity (hc.mono hle)
    have hinit := (hc.mono hle).method? "init"
    dsimp only
    generalize c.method? "init" = found, c'.method? "init" = found' at hinit
    cases hinit with
    | none => exact .pure fun _ hle' => hobject (hle.trans hle')
    | some hm =>
      exact (Accord.bindThis hm (hobject hle)).bind fun _ hle₁ _ _ hready =>
        (ih.callClosure hready (hgiven.imp fun _ _ h => h.mono (hle.trans hle₁))).bind
          fun _ hle₂ _ _ _ => .pure fun _ hle₃ =>
            hobject (hle.trans (hle₁.trans (hle₂.trans hle₃)))
  | _ => exact Accord.failAt (.inl rfl) _

/-- So are closures. -/
theorem callClosure_succ (hp : r.Plain) (ih : RunsRenamed r fuel) {c c' : Closure} {given given' : List Value}
    (h : c.Akin r frames [] c') (hgiven : List.Forall₂ (Value.Akin r frames) given given') :
    Accord r frames marks (Value.Akin r) (Eval.callClosure (fuel + 1) c given)
      (Eval.callClosure (fuel + 1) c' given') := by
  have hclosure := h
  obtain ⟨d, around, isInitializer⟩ := c
  obtain ⟨d', around', isInitializer'⟩ := c'
  obtain ⟨henv, -, hmarked, hdeclaration⟩ := h
  cases henv
  obtain ⟨mark, hparams, hbody⟩ := hdeclaration.function_body
  -- The frame of the call gets the mark of the scope of the function.
  refine (Accord.pushEmpty hmarked mark).bind ?_
  rintro _ hle env _ ⟨rfl, henv⟩
  refine (Accord.defineParams henv.frame hparams (hgiven.imp fun _ _ h => h.mono hle)).bind
    fun _ hle₁ _ _ _ => ?_
  exact (Accord.within (henv.mono hle₁) (ih.executeAll hbody)).bind fun _ hle₂ _ _ hcompletion =>
    Accord.answer hp (hclosure.mono (hle.trans (hle₁.trans hle₂))) hcompletion

/-- Renamed statements are executed alike. -/
theorem execute_succ (ih : RunsRenamed r fuel) {s s' : Stmt} (h : Renamed r marks (.stmt s) (.stmt s')) :
    Accord r frames marks (CompletionAkin r) (Eval.execute (fuel + 1) s) (Eval.execute (fuel + 1) s') := by
  cases h with
  | expression h => exact (ih.evaluate h).bind fun _ _ _ _ _ => .pure fun _ _ => .normal
  | value h => exact (ih.evaluate h).bind fun _ _ _ _ _ => .pure fun _ _ => .normal
  | unset hname => exact (Accord.define hname .none).bind fun _ _ _ _ _ => .pure fun _ _ => .normal
  | initialized hname h =>
    exact ((ih.evaluate h).map fun _ _ _ hv => .some hv).bind fun _ _ _ _ hslot =>
      (Accord.define hname hslot).bind fun _ _ _ _ _ => .pure fun _ _ => .normal
  | @block _ mark _ _ h =>
    refine Accord.env.bind ?_
    rintro _ - env _ ⟨rfl, henv⟩
    refine (Accord.pushEmpty henv mark).bind ?_
    rintro _ - inner _ ⟨rfl, hinner⟩
    exact Accord.within hinner (ih.executeAll h)
  | ifOnly hc ht =>
    refine (ih.evaluate hc).bind fun _ _ a a' ha => ?_
    rw [ha.truthy_eq]
    split
    · exact ih.execute ht
    · exact .pure fun _ _ => .normal
  | ifElse hc ht he =>
    refine (ih.evaluate hc).bind fun _ _ a a' ha => ?_
    rw [ha.truthy_eq]
    split
    · exact ih.execute ht
    · exact ih.execute he
  | whileLoop hc hb =>
    refine (ih.evaluate hc).bind fun _ _ a a' ha => ?_
    rw [ha.truthy_eq]
    split
    · refine (ih.execute hb).bind fun _ _ completion completion' hcompletion => ?_
      cases hcompletion with
      -- The other rounds are the same loop with less fuel.
      | normal => exact ih.execute (.whileLoop hc hb)
      | broke => exact .pure fun _ _ => .normal
      | returned hv => exact .pure fun _ hle => .returned (hv.mono hle)
    · exact .pure fun _ _ => .normal
  | breakLoop => exact .pure fun _ _ => .broke
  | @funcDecl _ d d' hname hd =>
    refine Accord.env.bind ?_
    rintro _ - env _ ⟨rfl, henv⟩
    dsimp only
    rw [hd.function_name, hd.function_keyword]
    have hclosure : Closure.Akin r _ [] ⟨d, env, false⟩ ⟨d', env, false⟩ := .intro rfl rfl henv hd
    exact (Accord.functionValue hclosure).bind fun _ _ _ _ hv =>
      (Accord.define hname (.some hv)).bind fun _ _ _ _ _ => .pure fun _ _ => .normal
  | classDecl hname href hds =>
    have hmeet := related_imp href fun _ _ h => Accord.Meet.of_refs h
    exact (Accord.declareClass hname hmeet hds).bind fun _ _ _ _ _ => .pure fun _ _ => .normal
  | returned => exact .pure fun _ _ => .returned .nil
  | returnedValue h =>
    refine Accord.bind (P := fun frames' => Option.Rel (Value.Akin r frames'))
      ((ih.evaluate h).map fun _ _ _ hv => .some hv) fun _ _ result result' hresult => ?_
    cases hresult with
    | none => exact .pure fun _ _ => .returned .nil
    | some hv => exact .pure fun _ hle => .returned (hv.mono hle)

/-- So are several of them, up to the first that is not completed normally. -/
theorem executeAll_succ (ih : RunsRenamed r fuel) {ss ss' : List Stmt}
    (h : Renamed r marks (.stmts ss) (.stmts ss')) :
    Accord r frames marks (CompletionAkin r) (Eval.executeAll (fuel + 1) ss)
      (Eval.executeAll (fuel + 1) ss') := by
  cases h with
  | noStmts => exact .pure fun _ _ => .normal
  | stmts h hss =>
    refine (ih.execute h).bind fun _ _ completion completion' hcompletion => ?_
    cases hcompletion with
    | normal => exact ih.executeAll hss
    | broke => exact .pure fun _ _ => .broke
    | returned hv => exact .pure fun _ hle => .returned (hv.mono hle)

/-- Renamed texts run alike with more fuel if they do with less. -/
theorem succ (hp : r.Plain) (ih : RunsRenamed r fuel) : RunsRenamed r (fuel + 1) where
  evaluate := ih.evaluate_succ hp
  evaluateAll := ih.evaluateAll_succ
  call := ih.call_succ
  callClosure := ih.callClosure_succ hp
  execute := ih.execute_succ
  executeAll := ih.executeAll_succ

end RunsRenamed

/-- **Renamed texts run alike.** -/
theorem runsRenamed (hp : r.Plain) (fuel : Nat) : RunsRenamed r fuel := by
  induction fuel with
  | zero => exact .zero
  | succ fuel ih => exact ih.succ hp

/-! ## Programs -/

/-- A program and the renamed one run alike. -/
theorem runAll_renamed (hp : r.Plain) (fuel : Nat) {ss ss' : List Stmt}
    (h : Renamed r marks (.stmts ss) (.stmts ss')) {last last' : Option Value}
    (hlast : Option.Rel (Value.Akin r frames) last last') :
    Accord r frames marks (fun frames' => Option.Rel (Value.Akin r frames')) (runAll fuel ss last)
      (runAll fuel ss' last') := by
  have hrules := runsRenamed hp fuel
  induction ss generalizing frames ss' last last' with
  | nil =>
    cases h
    exact .pure fun _ hle => related_imp hlast fun _ _ hv => hv.mono hle
  | cons s ss ih =>
    cases h with
    | stmts hs hss =>
      -- So runs every statement but one that shows a value.
      have hstep : Accord r frames marks (fun frames' => Option.Rel (Value.Akin r frames'))
          (execute fuel s >>= fun _ => runAll fuel ss last)
          (execute fuel _ >>= fun _ => runAll fuel _ last') :=
        (hrules.execute hs).bind fun _ hle _ _ _ =>
          ih hss (related_imp hlast fun _ _ hv => hv.mono hle)
      cases hs with
      | value he => exact (hrules.evaluate he).bind fun _ _ _ _ hv => ih hss (.some hv)
      | _ => exact hstep

end Eval
end Lox
