import Lox.Store

/-!
  Trees of frames.

  A tree begins with one frame, and every other one is made inside a frame that is there.  A frame is
  reached in two ways: as the innermost one of its own chain, or at a distance from any frame that lies
  inside it.  Frames are shared, so what is done in one way is seen in all others.

  A history is what has been done with the frames of a tree, with how it ended.  It alone tells which
  frame lies around which (`parent?`), and so which lies a distance outward (`climb`); the chains never
  say anything else (`Shaped.ancestor_eq_climb`).

  An access is one of the operations of the store, with its arguments (`Access`, `perform`).  Each either
  fails and leaves the tree as it was, or succeeds and has the one effect that `Access.effect` gives for it
  (`perform_cases`); what is proved of the trees of histories is proved of these two outcomes, not of
  the seven operations.  The shape of a tree is kept for two reasons only, then: a write changes no
  chain (`Shaped.of_same`), and a new frame adds one whose parent is the frame it was made in
  (`Shaped.child`).
-/

namespace Lox.Frames

/-- What can be done with a frame. -/
inductive Access where
  /-- A frame is made inside it. -/
  | child
  | define (name : String) (slot : Option Value)
  /-- A name gets a value, whatever it had before. -/
  | insert (name : String) (value : Value)
  | assign (name : String) (value : Value)
  | get (name : String)
  | assignAt (distance : Nat) (name : String) (value : Value)
  | getAt (distance : Nat) (name : String)

/-- Frames, each with the chain that leads outward from it. -/
structure Tree where
  store : Store
  /-- The chains, in the order in which the frames were made. -/
  chains : List Env

/-- One frame, without names. -/
def Tree.start : Tree := ⟨.start, [.global]⟩

/-- Does a step on the store of a tree. -/
def onStore {α : Type} (answer : α → Option Value) (step : StoreStep α) :
    Action Tree RuntimeFault (Option Value)
  | ⟨store, chains⟩ =>
    match step store with
    | .done a store => .done (answer a) ⟨store, chains⟩
    | .failed fault store => .failed fault ⟨store, chains⟩
    | .exhausted => .exhausted

/-- Accesses the frame from which the chain leads outward.  What is read is the answer. -/
def perform (env : Env) : Access → Action Tree RuntimeFault (Option Value)
  | .child => fun t =>
    let (inner, store) := t.store.push env .empty
    .done none ⟨store, t.chains ++ [inner]⟩
  | .define name slot => onStore (fun _ => none) (Store.define env.frame name slot)
  | .insert name value => fun t => .done none { t with store := t.store.put env.frame name (some value) }
  | .assign name value => onStore (fun _ => none) (Store.assign env.frame name value)
  | .get name => onStore some (Store.get env.frame name)
  | .assignAt distance name value => onStore (fun _ => none) (Store.assignAt env distance name value)
  | .getAt distance name => onStore some (Store.getAt env distance name)

/-! ## Histories -/

/-- An access to a frame, by the number of the frame, and how it ended. -/
structure Record where
  frame : Nat
  access : Access
  result : Except RuntimeFault (Option Value)

/-- A history, the latest access first. -/
abbrev History := List Record

/-- The tree has come about from the first by the accesses of the history. -/
inductive Tree.Past (first : Tree) : History → Tree → Prop where
  | start : Past first [] first
  | done {h : History} {t t' : Tree} {f : Nat} {env : Env} {a : Access} {answer : Option Value} :
    Past first h t → t.chains[f]? = some env → perform env a t = .done answer t' →
    Past first (⟨f, a, .ok answer⟩ :: h) t'
  | failed {h : History} {t t' : Tree} {f : Nat} {env : Env} {a : Access} {fault : RuntimeFault} :
    Past first h t → t.chains[f]? = some env → perform env a t = .failed fault t' →
    Past first (⟨f, a, .error fault⟩ :: h) t'

/-- How many frames there are. -/
def frameCount : History → Nat
  | [] => 1
  | ⟨_, .child, _⟩ :: h => frameCount h + 1
  | _ :: h => frameCount h

/-- The frame inside which a frame was made. -/
def parent? (f : Nat) : History → Option Nat
  | [] => none
  | ⟨around, .child, _⟩ :: h => if f = frameCount h then some around else parent? f h
  | _ :: h => parent? f h

/-- The frame that is reached from a frame by going to the parent so many times. -/
def climb (h : History) : Nat → Nat → Option Nat
  | 0, f => some f
  | distance + 1, f => (parent? f h).bind (climb h distance)

/-! ## What an access does to a tree

  An access succeeds with an effect that is a single write, or none; or it fails and leaves the tree. -/

/-- The name that an access is to write, with its frame and its new slot.  `reach` gives the frame at a
    distance. -/
def Access.write? (reach : Nat → Option Nat) : Access → Option (Nat × String × Option Value)
  | .define name slot => (reach 0).map (·, name, slot)
  | .insert name value | .assign name value => (reach 0).map (·, name, some value)
  | .assignAt distance name value => (reach distance).map (·, name, some value)
  | .child | .get _ | .getAt _ _ => none

/-- What an access that succeeds makes of a tree. -/
def Access.effect (env : Env) (t : Tree) : Access → Tree
  | .child => ⟨(t.store.push env .empty).2, t.chains ++ [(t.store.push env .empty).1]⟩
  | a =>
    match a.write? env.ancestor? with
    | some (frame, name, slot) => { t with store := t.store.put frame name slot }
    | none => t

section Steps

variable {t t' : Tree} {env : Env} {f : Nat} {x : String} {v : Value}

/-- What makes no frame writes a name, or nothing. -/
theorem Access.effect_eq {a : Access} (ha : a ≠ .child) : a.effect env t =
    match a.write? env.ancestor? with
    | some (frame, name, slot) => { t with store := t.store.put frame name slot }
    | none => t := by
  cases a with
  | child => exact absurd rfl ha
  | _ => rfl

/-- A name is declared unless it is there already in the same frame; a frame further out does not matter. -/
theorem perform_define (slot : Option Value) : perform env (.define x slot) t =
    if (t.store.slot? env.frame x).isSome then .failed .alreadyDefined t
    else .done none { t with store := t.store.put env.frame x slot } := by
  simp only [perform, onStore, Store.define]
  by_cases h : (t.store.slot? env.frame x).isSome <;> simp [h]

/-- A name is assigned only if it is declared in this frame, be it with or without a value. -/
theorem perform_assign : perform env (.assign x v) t =
    if (t.store.slot? env.frame x).isSome then
      .done none { t with store := t.store.put env.frame x (some v) }
    else .failed .undefinedVariable t := by
  simp only [perform, onStore, Store.assign]
  by_cases h : (t.store.slot? env.frame x).isSome <;> simp [h]

/-- A slot without a value is told apart from a name that is not there. -/
theorem perform_get : perform env (.get x) t =
    match t.store.slot? env.frame x with
    | some (some value) => .done (some value) t
    | some none => .failed .notInitialized t
    | none => .failed .undefinedVariable t := by
  simp only [perform, onStore, Store.get]
  rcases t.store.slot? env.frame x with _ | _ | value <;> rfl

/-- Where there is no frame at the distance, there is nothing to access. -/
theorem perform_beyond {d : Nat} (h : env.ancestor? d = none) (x : String) (v : Value) :
    perform env (.getAt d x) t = .failed .noEnclosingScope t ∧
    perform env (.assignAt d x v) t = .failed .noEnclosingScope t := by
  simp only [perform, onStore, Store.getAt, Store.assignAt, Store.ancestor, h]
  constructor <;> rfl

/-- An access at a distance is one to the frame that lies there. -/
theorem perform_at {d : Nat} (outer : Env) (h : env.ancestor? d = some outer.frame) (x : String) (v : Value) :
    perform env (.getAt d x) t = perform outer (.get x) t ∧
    perform env (.assignAt d x v) t = perform outer (.assign x v) t := by
  simp only [perform, onStore, Store.getAt, Store.assignAt, Store.ancestor, h]
  constructor <;> rfl

/-- **An access fails and leaves the tree as it was, or succeeds and has its effect.** -/
theorem perform_cases (env : Env) (a : Access) (t : Tree) :
    (∃ fault, perform env a t = .failed fault t) ∨
      ∃ answer, perform env a t = .done answer (a.effect env t) := by
  cases a with
  | child => exact .inr ⟨none, rfl⟩
  | define x slot =>
    rw [perform_define]
    split
    · exact .inl ⟨_, rfl⟩
    · exact .inr ⟨_, rfl⟩
  | insert x v => exact .inr ⟨none, rfl⟩
  | assign x v =>
    rw [perform_assign]
    split
    · exact .inr ⟨_, rfl⟩
    · exact .inl ⟨_, rfl⟩
  | get x =>
    rw [perform_get]
    split
    · exact .inr ⟨_, rfl⟩
    · exact .inl ⟨_, rfl⟩
    · exact .inl ⟨_, rfl⟩
  -- At a distance an access is one of the frame that lies there, or fails for want of a frame.
  | assignAt d x v =>
    cases hd : env.ancestor? d with
    | none => exact .inl ⟨_, (perform_beyond hd x v).2⟩
    | some g =>
      have heffect : Access.effect env t (.assignAt d x v) =
          { t with store := t.store.put g x (some v) } := by
        simp only [Access.effect, Access.write?, hd, Option.map_some]
      rw [heffect, (perform_at ⟨g, []⟩ hd x v).2, perform_assign]
      split
      · exact .inr ⟨_, rfl⟩
      · exact .inl ⟨_, rfl⟩
  | getAt d x =>
    cases hd : env.ancestor? d with
    | none => exact .inl ⟨_, (perform_beyond hd x .nil).1⟩
    | some g =>
      rw [(perform_at ⟨g, []⟩ hd x .nil).1, perform_get]
      split
      · exact .inr ⟨_, rfl⟩
      · exact .inl ⟨_, rfl⟩
      · exact .inl ⟨_, rfl⟩

/-- What fails leaves the tree as it was. -/
theorem perform_failed {a : Access} {fault : RuntimeFault} (h : perform env a t = .failed fault t') :
    t' = t := by
  rcases perform_cases env a t with ⟨fault', heq⟩ | ⟨answer, heq⟩
  · rw [heq] at h
    cases h
    rfl
  · rw [heq] at h
    cases h

/-- What succeeds has the effect of its access, whatever it answers. -/
theorem perform_done {a : Access} {answer : Option Value} (h : perform env a t = .done answer t') :
    t' = a.effect env t := by
  rcases perform_cases env a t with ⟨fault, heq⟩ | ⟨answer', heq⟩
  · rw [heq] at h
    cases h
  · rw [heq] at h
    cases h
    rfl

end Steps

/-! ## Chains

  A chain is the way from a frame to the globals, so a distance along it is a number of steps up the tree. -/

/-- The frames and the chains of the tree are those of which the history tells. -/
structure Shaped (h : History) (t : Tree) : Prop where
  size : t.store.frames.size = frameCount h
  count : t.chains.length = frameCount h
  frame : ∀ (f : Nat) (env : Env), t.chains[f]? = some env → env.frame = f
  outer : ∀ (f : Nat) (env : Env), t.chains[f]? = some env →
    match parent? f h with
    | none => env.outer = []
    | some around => ∃ env', t.chains[around]? = some env' ∧ env = env'.extend f

/-- In the first tree there is one frame, with none around it. -/
theorem Shaped.start : Shaped [] .start := by
  refine ⟨rfl, rfl, ?_, ?_⟩
  · intro f env h
    cases f with
    | zero =>
      cases h
      rfl
    | succ f => cases h
  · intro f env h
    cases f with
    | zero =>
      cases h
      rfl
    | succ f => cases h

namespace Shaped

variable {h : History} {t : Tree}

/-- The frame of a chain is in the store. -/
theorem present (hs : Shaped h t) {f : Nat} {env : Env} (hf : t.chains[f]? = some env) :
    f < t.store.frames.size := by
  have hlt : f < t.chains.length := (List.getElem?_eq_some_iff.mp hf).1
  have hsize := hs.size
  have hcount := hs.count
  omega

/-- **A chain leads through the frames around its own, one after the other.** -/
theorem ancestor_eq_climb (hs : Shaped h t) {f : Nat} {env : Env} (hf : t.chains[f]? = some env) (d : Nat) :
    env.ancestor? d = climb h d f ∧ ∀ g, climb h d f = some g → ∃ outer, t.chains[g]? = some outer := by
  -- The induction is on the distance, and climbs from the inside: the chain of a frame is that of its parent
  -- with one frame more in front.
  induction d generalizing f env with
  | zero =>
    have hframe := hs.frame f env hf
    constructor
    · show some env.frame = some f
      rw [hframe]
    · rintro g ⟨⟩
      exact ⟨env, hf⟩
  | succ d ih =>
    have houter := hs.outer f env hf
    cases hp : parent? f h with
    | none =>
      rw [hp] at houter
      have hclimb : climb h (d + 1) f = none := by rw [climb, hp]; rfl
      rw [hclimb]
      constructor
      · show env.outer[d]? = none
        rw [show env.outer = [] from houter]
        rfl
      · intro g hg
        cases hg
    | some around =>
      rw [hp] at houter
      obtain ⟨env', henv', rfl⟩ := houter
      have hclimb : climb h (d + 1) f = climb h d around := by rw [climb, hp]; rfl
      rw [hclimb]
      exact ih henv'

/-- What writes slots only makes no difference to frames and chains. -/
theorem of_same {r : Record} {t' : Tree} (hs : Shaped h t) (hr : r.access ≠ .child)
    (hsize : t'.store.frames.size = t.store.frames.size) (hchains : t'.chains = t.chains) :
    Shaped (r :: h) t' := by
  obtain ⟨f, a, result⟩ := r
  have hcount : frameCount (⟨f, a, result⟩ :: h) = frameCount h := by
    cases a <;> first | rfl | exact absurd rfl hr
  have hparent : ∀ g, parent? g (⟨f, a, result⟩ :: h) = parent? g h := by
    intro g
    cases a <;> first | rfl | exact absurd rfl hr
  refine ⟨by rw [hsize, hcount, hs.size], by rw [hchains, hcount, hs.count], ?_, ?_⟩
  · rw [hchains]
    exact hs.frame
  · intro g env hg
    rw [hchains] at hg ⊢
    rw [hparent g]
    exact hs.outer g env hg

/-- A new frame lies inside the one of the chain. -/
theorem child {f : Nat} {env : Env} (hs : Shaped h t) (hf : t.chains[f]? = some env)
    (result : Except RuntimeFault (Option Value)) :
    Shaped (⟨f, .child, result⟩ :: h) (Access.effect env t .child) := by
  have hsize := hs.size
  have hcount := hs.count
  have hparent : ∀ g, parent? g (⟨f, .child, result⟩ :: h) =
      if g = frameCount h then some f else parent? g h := fun _ => rfl
  -- Every chain is the new one, or was there before.
  have hinner : ∀ (g : Nat) (outer : Env), (Access.effect env t .child).chains[g]? = some outer →
      (g = frameCount h ∧ outer = env.extend g) ∨ (g < frameCount h ∧ t.chains[g]? = some outer) := by
    intro g outer hg
    change (t.chains ++ [env.extend t.store.frames.size])[g]? = some outer at hg
    rcases Nat.lt_trichotomy g t.chains.length with hlt | heq | hgt
    · rw [List.getElem?_append_left hlt] at hg
      exact .inr ⟨by omega, hg⟩
    · subst heq
      rw [List.getElem?_append_right (Nat.le_refl _), Nat.sub_self] at hg
      cases hg
      rw [hsize, ← hcount]
      exact .inl ⟨rfl, rfl⟩
    · rw [List.getElem?_eq_none (by simp; omega)] at hg
      cases hg
  have hkept : ∀ (g : Nat) (outer : Env), t.chains[g]? = some outer →
      (Access.effect env t .child).chains[g]? = some outer := by
    intro g outer hg
    have hlt : g < t.chains.length := (List.getElem?_eq_some_iff.mp hg).1
    show (t.chains ++ [_])[g]? = _
    rw [List.getElem?_append_left hlt, hg]
  refine ⟨?_, ?_, ?_, ?_⟩
  · show (t.store.frames.push _).size = frameCount h + 1
    rw [Array.size_push, hsize]
  · show (t.chains ++ [_]).length = frameCount h + 1
    rw [List.length_append, hcount]
    rfl
  · intro g outer hg
    rcases hinner g outer hg with ⟨-, rfl⟩ | ⟨-, hg'⟩
    · rfl
    · exact hs.frame g outer hg'
  · intro g outer hg
    rw [hparent g]
    rcases hinner g outer hg with ⟨heq, rfl⟩ | ⟨hlt, hg'⟩
    · rw [if_pos heq]
      exact ⟨env, hkept f env hf, rfl⟩
    · rw [if_neg (by omega)]
      have houter := hs.outer g outer hg'
      cases hp : parent? g h with
      | none =>
        rw [hp] at houter
        exact houter
      | some around =>
        rw [hp] at houter
        obtain ⟨env', henv', hextend⟩ := houter
        exact ⟨env', hkept around env' henv', hextend⟩

/-- **The shape of a tree is that of its history.** -/
theorem of_past (hpast : Tree.start.Past h t) : Shaped h t := by
  induction hpast with
  | start => exact .start
  | @done h t t' f env a answer _ hf hrun ih =>
    rw [perform_done hrun]
    by_cases ha : a = .child
    · subst ha
      exact ih.child hf _
    · have hsame : (a.effect env t).store.frames.size = t.store.frames.size ∧
          (a.effect env t).chains = t.chains := by
        rw [Access.effect_eq ha]
        split
        · exact ⟨Array.size_modify, rfl⟩
        · exact ⟨rfl, rfl⟩
      exact ih.of_same ha hsame.1 hsame.2
  | @failed h t t' f env a fault _ hf hrun ih =>
    rw [perform_failed hrun]
    refine ih.of_same ?_ rfl rfl
    -- To make a frame never fails.
    rintro rfl
    cases hrun

end Shaped

end Lox.Frames
