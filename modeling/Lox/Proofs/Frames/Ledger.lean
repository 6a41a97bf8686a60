import Lox.Proofs.Frames.Trees

/-!
  Frames as one store.

  Whatever has been done with the frames of a tree, on whatever ways they were reached, a frame has for a
  name what was written there last (`held`, `slot?_eq_held`).  So all frames together are one store, whose
  keys are pairs of a frame and a name (`frames_are_one_store`): what an access does depends on its own pair
  alone, and it changes no other; and a pair that has been declared stays so, and keeps a value once it has
  one (`Advances`).

  What was written last is read off the history, without the tree, and that is the point of it: a history
  names frames by their numbers only, and climbs by `parent?`, so it knows nothing of chains.  That the tree
  agrees is an induction on the history with one fact for each step: an access that succeeds changes the
  slot that `Access.write?` names, and no other (`slot?_effect`).  That the frame of this slot is there at
  all, so that the write is not lost, is where the shape of the tree is needed
  (`Shaped.written_present`).
-/

namespace Lox.Frames

/-- What was written last for a name of a frame: nothing yet, a slot without a value, or a value. -/
def held (f : Nat) (x : String) : History → Option (Option Value)
  | [] => none
  | ⟨_, _, .error _⟩ :: h => held f x h
  | ⟨from_, a, .ok _⟩ :: h =>
    match a.write? (climb h · from_) with
    | none => held f x h
    | some (g, y, slot) => if g = f ∧ y = x then some slot else held f x h

/-- A slot has only filled up. -/
structure Advances (before after : Option (Option Value)) : Prop where
  declared : before.isSome → after.isSome
  valued : before.join.isSome → after.join.isSome

namespace Advances

/-- What stays as it is has not lost anything. -/
theorem refl (slot : Option (Option Value)) : Advances slot slot := ⟨id, id⟩

/-- One step after the other. -/
theorem trans {a b c : Option (Option Value)} (h : Advances a b) (h' : Advances b c) : Advances a c :=
  ⟨h'.declared ∘ h.declared, h'.valued ∘ h.valued⟩

/-- A slot with a value is as full as a slot can be. -/
theorem of_value (slot : Option (Option Value)) (v : Value) : Advances slot (some (some v)) :=
  ⟨fun _ => rfl, fun _ => rfl⟩

/-- Where nothing was declared, nothing can be taken away. -/
theorem of_none (slot : Option (Option Value)) : Advances none slot := ⟨nofun, nofun⟩

end Advances

section Accesses

variable {h : History} {t t' : Tree} {env : Env} {f : Nat} {a : Access} {answer : Option Value}

/-- The frames of a tree that lie at a distance are those to which the history climbs. -/
theorem Shaped.write?_eq (hs : Shaped h t) (hf : t.chains[f]? = some env) (a : Access) :
    a.write? env.ancestor? = a.write? (climb h · f) := by
  have hreach : env.ancestor? = fun d => climb h d f := by
    funext d
    exact (hs.ancestor_eq_climb hf d).1
  rw [hreach]

/-- What is written is written in a frame of the tree. -/
theorem Shaped.written_present (hs : Shaped h t) (hf : t.chains[f]? = some env) {g : Nat} {y : String}
    {slot : Option Value} (hw : a.write? env.ancestor? = some (g, y, slot)) : g < t.store.frames.size := by
  have hreach : ∀ d, env.ancestor? d = some g → g < t.store.frames.size := by
    intro d hd
    obtain ⟨hclimb, hchain⟩ := hs.ancestor_eq_climb hf d
    obtain ⟨outer, houter⟩ := hchain g (hclimb ▸ hd)
    exact hs.present houter
  cases a with
  | define | insert | assign =>
    cases hw
    exact hreach 0 rfl
  | assignAt d y v =>
    simp only [Access.write?, Option.map_eq_some_iff] at hw
    obtain ⟨g', hg, heq⟩ := hw
    cases heq
    exact hreach d hg
  | child | get | getAt => cases hw

/-- An access that succeeds changes the slot that it writes, and no other. -/
theorem slot?_effect (hs : Shaped h t) (hf : t.chains[f]? = some env) (a : Access) (g : Nat) (y : String) :
    (a.effect env t).store.slot? g y =
      match a.write? (climb h · f) with
      | none => t.store.slot? g y
      | some (g', y', slot) => if g' = g ∧ y' = y then some slot else t.store.slot? g y := by
  rw [← hs.write?_eq hf a]
  -- Only the access that makes a frame changes the store otherwise than by a write.
  by_cases ha : a = .child
  · subst ha
    show (t.store.push env .empty).2.slot? g y = t.store.slot? g y
    rw [Store.slot?_push]
    split
    · -- A new frame has no names, and before there was no such frame.
      rename_i hnew
      subst hnew
      simp [Store.slot?]
    · rfl
  · rw [Access.effect_eq ha]
    cases hw : a.write? env.ancestor? with
    | none => rfl
    | some write =>
      obtain ⟨g', y', slot⟩ := write
      exact Store.slot?_put _ (hs.written_present hf hw) _ _ _ _

/-- **A frame has for a name what was written there last.** -/
theorem slot?_eq_held (hpast : Tree.start.Past h t) (g : Nat) (y : String) :
    t.store.slot? g y = held g y h := by
  induction hpast with
  | start =>
    cases g with
    | zero => rfl
    | succ g => rfl
  | @done h t t' f env a answer hpast hf hrun ih =>
    rw [perform_done hrun, slot?_effect (.of_past hpast) hf, held, ih]
  | @failed h t t' f env a fault _ hf hrun ih =>
    rw [perform_failed hrun, held]
    exact ih

/-- What an access that succeeds writes takes nothing away. -/
theorem written_advances (hrun : perform env a t = .done answer t') {g : Nat} {y : String}
    {slot : Option Value} (hw : a.write? env.ancestor? = some (g, y, slot)) :
    Advances (t.store.slot? g y) (some slot) := by
  cases a with
  | define x slot' =>
    cases hw
    rw [perform_define] at hrun
    split at hrun
    · cases hrun
    · rename_i hfresh
      have hnone : t.store.slot? env.frame y = none := by simpa using hfresh
      rw [hnone]
      exact .of_none _
  | insert x v | assign x v =>
    cases hw
    exact .of_value _ v
  | assignAt d x v =>
    obtain ⟨g', hg, heq⟩ := Option.map_eq_some_iff.mp hw
    cases heq
    exact .of_value _ v
  | child | get | getAt => cases hw

/-- **Slots only fill up**, whatever is done with the frames. -/
theorem advances_of_past {first later : Tree} {h h' : History} (hfirst : Tree.start.Past h first)
    (hpast : first.Past h' later) (g : Nat) (y : String) :
    Advances (first.store.slot? g y) (later.store.slot? g y) ∧ ∃ h'', Tree.start.Past h'' later := by
  induction hpast with
  | start => exact ⟨.refl _, h, hfirst⟩
  | @done h' t t' f env a answer _ hf hrun ih =>
    obtain ⟨hadvances, h'', hpast⟩ := ih
    refine ⟨hadvances.trans ?_, _, hpast.done hf hrun⟩
    have hshaped := Shaped.of_past hpast
    have hwrite := hshaped.write?_eq hf a
    rw [perform_done hrun, slot?_effect hshaped hf, ← hwrite]
    split
    -- Either the access writes nothing, or it writes another pair than this one, or this one.
    · exact .refl _
    · rename_i g' y' slot hw
      split
      · rename_i hsame
        obtain ⟨rfl, rfl⟩ := hsame
        exact written_advances hrun hw
      · exact .refl _
  | @failed h' t t' f env a fault _ hf hrun ih =>
    obtain ⟨hadvances, h'', hpast⟩ := ih
    refine ⟨?_, _, hpast.failed hf hrun⟩
    rw [perform_failed hrun]
    exact hadvances

/-- Whatever is done with a frame that is there ends, and goes into the history. -/
theorem Tree.Past.step (hpast : Tree.start.Past h t) (hf : t.chains[f]? = some env) (a : Access) :
    ∃ result t', Tree.start.Past (⟨f, a, result⟩ :: h) t' := by
  rcases perform_cases env a t with ⟨fault, hrun⟩ | ⟨answer, hrun⟩
  · exact ⟨.error fault, _, hpast.failed hf hrun⟩
  · exact ⟨.ok answer, _, hpast.done hf hrun⟩

end Accesses

/-! ## One store -/

/-- The law of a store whose keys are pairs of a frame and a name, for a tree and what has been done with
    it. -/
structure OneStore (h : History) (t : Tree) : Prop where
  /-- Every access to a frame of the tree ends. -/
  goesOn : ∀ (f : Nat) (env : Env), t.chains[f]? = some env → ∀ a, ∃ result t',
    Tree.start.Past (⟨f, a, result⟩ :: h) t'
  /-- A pair has what was written there last. -/
  latest : ∀ f x, t.store.slot? f x = held f x h
  /-- A pair only fills up. -/
  fills : ∀ h' later, t.Past h' later → ∀ f x, Advances (t.store.slot? f x) (later.store.slot? f x)
  /-- A name that is declared in a frame is not declared there again. -/
  define : ∀ (f : Nat) (env : Env), t.chains[f]? = some env → ∀ x slot,
    if (held f x h).isSome then perform env (.define x slot) t = .failed .alreadyDefined t
    else ∃ t', perform env (.define x slot) t = .done none t'
  /-- Any name can be inserted. -/
  insert : ∀ (f : Nat) (env : Env), t.chains[f]? = some env → ∀ x v,
    ∃ t', perform env (.insert x v) t = .done none t'
  /-- A name that is not declared in a frame is not assigned there. -/
  assign : ∀ (f : Nat) (env : Env), t.chains[f]? = some env → ∀ x v,
    if (held f x h).isSome then ∃ t', perform env (.assign x v) t = .done none t'
    else perform env (.assign x v) t = .failed .undefinedVariable t
  /-- What is read was written last; a name without a value is told apart from one that is not declared. -/
  get : ∀ (f : Nat) (env : Env), t.chains[f]? = some env → ∀ x, perform env (.get x) t =
    match held f x h with
    | some (some v) => .done (some v) t
    | some none => .failed .notInitialized t
    | none => .failed .undefinedVariable t
  /-- Where there are fewer frames around one than the distance, nothing is accessed. -/
  beyond : ∀ (f : Nat) (env : Env), t.chains[f]? = some env → ∀ d, climb h d f = none → ∀ x v,
    perform env (.getAt d x) t = .failed .noEnclosingScope t ∧
    perform env (.assignAt d x v) t = .failed .noEnclosingScope t
  /-- Otherwise the frame at that distance is. -/
  distant : ∀ (f : Nat) (env : Env), t.chains[f]? = some env → ∀ d g, climb h d f = some g →
    ∃ outer, t.chains[g]? = some outer ∧ ∀ x v,
      perform env (.getAt d x) t = perform outer (.get x) t ∧
      perform env (.assignAt d x v) t = perform outer (.assign x v) t
  /-- What fails changes nothing. -/
  failing : ∀ (f : Nat) (env : Env), t.chains[f]? = some env → ∀ a fault t',
    perform env a t = .failed fault t' → t' = t
  /-- What succeeds changes its own pair, if it writes one, and no other. -/
  succeeding : ∀ (f : Nat) (env : Env), t.chains[f]? = some env → ∀ a answer t',
    perform env a t = .done answer t' → ∀ g y, t'.store.slot? g y =
      match a.write? (climb h · f) with
      | none => t.store.slot? g y
      | some (g', y', slot) => if g' = g ∧ y' = y then some slot else t.store.slot? g y

/-- **The frames of a tree are one store keyed by frame and name**, whatever has been done with them. -/
theorem frames_are_one_store {h : History} {t : Tree} (hpast : Tree.start.Past h t) : OneStore h t := by
  have hshaped := Shaped.of_past hpast
  -- What a frame shows is what the history says it holds; every clause is read off this.
  have hslot : ∀ (f : Nat) (env : Env), t.chains[f]? = some env → ∀ x,
      t.store.slot? env.frame x = held f x h := by
    intro f env hf x
    rw [hshaped.frame f env hf]
    exact slot?_eq_held hpast f x
  constructor
  case goesOn => exact fun f env hf a => hpast.step hf a
  case latest => exact slot?_eq_held hpast
  case fills => exact fun h' later hlater f x => (advances_of_past hpast hlater f x).1
  case define =>
    intro f env hf x slot
    rw [perform_define, hslot f env hf x]
    split
    · rfl
    · exact ⟨_, rfl⟩
  case insert => exact fun f env hf x v => ⟨_, rfl⟩
  case assign =>
    intro f env hf x v
    rw [perform_assign, hslot f env hf x]
    split
    · exact ⟨_, rfl⟩
    · rfl
  case get =>
    intro f env hf x
    rw [← hslot f env hf x]
    exact perform_get
  case beyond =>
    intro f env hf d hclimb x v
    rw [← (hshaped.ancestor_eq_climb hf d).1] at hclimb
    exact perform_beyond hclimb x v
  case distant =>
    intro f env hf d g hclimb
    obtain ⟨hancestor, hchain⟩ := hshaped.ancestor_eq_climb hf d
    obtain ⟨outer, houter⟩ := hchain g hclimb
    refine ⟨outer, houter, ?_⟩
    have hframe : env.ancestor? d = some outer.frame := by
      rw [hancestor, hclimb, hshaped.frame g outer houter]
    exact perform_at outer hframe
  case failing => exact fun f env hf a fault t' hrun => perform_failed hrun
  case succeeding =>
    intro f env hf a answer t' hrun g y
    rw [perform_done hrun]
    exact slot?_effect hshaped hf a g y

/-- A variable of the outermost frame is read from inside before it has a value, gets one from there, and
    is read from a frame that is made later. -/
def readFromInside : History :=
  [⟨3, .getAt 1 "x", .ok (some (.bool true))⟩, ⟨0, .child, .ok none⟩,
    ⟨2, .assignAt 2 "x" (.bool true), .ok none⟩, ⟨2, .getAt 2 "x", .error .notInitialized⟩,
    ⟨0, .define "x" none, .ok none⟩, ⟨1, .child, .ok none⟩, ⟨0, .child, .ok none⟩]

/-- One variable, reached from its own frame, from two frames inside it and from one that is made only after
    the variable has got its value: all see the same slot. -/
theorem frames_are_one_store_shared : ∃ t, Tree.start.Past readFromInside t ∧
    OneStore readFromInside t ∧ t.store.slot? 0 "x" = some (some (.bool true)) := by
  have hpast : ∃ t, Tree.start.Past readFromInside t :=
    ⟨_, .done (.done (.done (.failed (.done (.done (.done .start rfl rfl) rfl rfl) rfl rfl) rfl rfl)
      rfl rfl) rfl rfl) rfl rfl⟩
  obtain ⟨t, hpast⟩ := hpast
  have hstore := frames_are_one_store hpast
  refine ⟨t, hpast, hstore, ?_⟩
  rw [hstore.latest]
  rfl

end Lox.Frames
