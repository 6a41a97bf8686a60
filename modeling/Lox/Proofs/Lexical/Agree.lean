import Lox.Proofs.Lexical.Worlds

/-!
  Stores that agree.

  A store of frames agrees with a state of cells, in a world, if every name of a frame has the value of
  the cell that stands for it (`Agree`).  A name with an empty cell is not in its frame, and then there
  is an excuse for it.  Each step on the one is answered by a step on the other, after which they agree
  again: giving a name a value, adding a name to a frame, adding a frame.

  The reason for excuses is a difference between the two.  On the side of the cells a variable has its cell
  before its initializer is evaluated, so that a function in the initializer sees it; on the side of the frames
  its name is put into the frame when the value is there.  If the initializer fails, the name is missing from
  then on, and whoever looks it up gets another error than that of a variable without a value.

  There are five steps, and for each of them all that `Agree` says is shown again.

  * `fill`: a cell that stands for a name gets a value, and the name is in its frame now;
  * `name`: a frame gets one more name, with a new cell;
  * `frame`: one more frame is made, without names;
  * `global`: a global name gets a value, which concerns no cell;
  * the steps on instances and identities, which are the same on both sides.

  What changes on the machine is, each time, one slot at most; this is said once (`Changed`) and used in all of
  them.  That a cell stands for one name only (`Agree.once`) is why no other name changes with it.
-/

namespace Lox.Lexical

open Scope

/-- What is known in the course of a run. -/
structure Lore where
  resolution : Resolution
  /-- The sites that the walks over the programs have come to. -/
  visited : Site → Prop
  /-- The moments that the evaluator comes to. -/
  lived : Moment → Prop

/-- What is known is closed: the parts of the sites and the moments within the moments are known, and
    all sites are settled. -/
structure Lore.Closed (L : Lore) : Prop where
  settled : ∀ {p}, L.visited p → Settled L.resolution p
  part : ∀ {p q}, L.visited p → Part p q → L.visited q
  calls : ∀ {μ μ'}, L.lived μ → Calls μ μ' → L.lived μ'

/-- Frames around methods hold what they are there for. -/
def Holds : LayerKind → Option (Option Value) → Prop
  | .body, _ => True
  | .this, slot => ∃ id c, slot = some (some (.object id c))
  | .super, slot => ∃ c, slot = some (some (.classOf c))

/-- In the world the store shows what the state shows.  Names that are missing in their frames are
    excused. -/
structure Agree (L : Lore) (E : Nat → String → Prop) (W : World) (s : Store) (t : State) : Prop where
  framed : ∀ f, (∃ ℓ, W.layer f = some ℓ) ↔ 0 < f ∧ f < s.frames.size
  nonempty : 0 < s.frames.size
  inside : ∀ f x c, W.cell f x = some c → ∃ ℓ, W.layer f = some ℓ ∧ ℓ.scope.contains x = true
  once : ∀ f x g y c, W.cell f x = some c → W.cell g y = some c → f = g ∧ x = y
  unnamed : ∀ f x, f ≠ 0 → W.cell f x = none → s.slot? f x = none
  filled : ∀ f x, f ≠ 0 → (s.slot? f x).isSome = W.filled f x
  named : ∀ f x c, W.cell f x = some c → ∃ cell, t.cells[c]? = some cell ∧
    SlotAlike L.visited W (s.slot? f x) cell.slot ∧ (cell.slot = none → E f x)
  holds : ∀ f ℓ x c, W.layer f = some ℓ → W.cell f x = some c → Holds ℓ.kind (s.slot? f x)
  made : ∀ f ℓ, W.layer f = some ℓ → Made L.lived L.visited f ℓ
  excused : ∀ f x, Unsupplied L.lived f x → E f x
  globals : ∀ x, SlotAlike L.visited W (s.slot? 0 x) (t.globals.get? x)
  objects : s.objects.size = t.objects.size
  fields : ∀ i x, Option.Rel (Alike L.visited W) (s.field? i x) (t.objects[i]?.bind (·.get? x))
  identity : s.nextIdentity = t.nextIdentity

/-! ## Stores that differ in one slot

  Most steps change one slot, so what is agreed on about all others only has to be carried over. -/

/-- The stores differ in one slot at most. -/
structure Changed (s s' : Store) (f : Nat) (x : String) (slot : Option (Option Value)) : Prop where
  size : s'.frames.size = s.frames.size
  objects : s'.objects = s.objects
  identity : s'.nextIdentity = s.nextIdentity
  slots : ∀ g y, s'.slot? g y = if f = g ∧ x = y then slot else s.slot? g y

namespace Changed

/-- A write changes the slot that it writes. -/
theorem put {s : Store} {f : Nat} (h : f < s.frames.size) (x : String) (slot : Option Value) :
    Changed s (s.put f x slot) f x (some slot) :=
  ⟨by simp [Store.put], rfl, rfl, Store.slot?_put s h x slot⟩

/-- A store differs from itself in no slot. -/
theorem same {s : Store} {f : Nat} {x : String} (h : s.slot? f x = none) : Changed s s f x none := by
  refine ⟨rfl, rfl, rfl, fun g y => ?_⟩
  split
  · rename_i hg
    rw [← hg.1, ← hg.2, h]
  · rfl

/-- A frame that is made with one name in it. -/
theorem push (s : Store) (x : String) (slot : Option Value) :
    Changed { s with frames := s.frames.push .empty }
      { s with frames := s.frames.push (Table.empty.insert x slot) } s.frames.size x (some slot) := by
  refine ⟨by simp, rfl, rfl, fun g y => ?_⟩
  simp only [Store.slot?, Array.getElem?_push]
  by_cases hg : g = s.frames.size
  · subst hg
    by_cases hy : x = y <;> simp [Table.get?_insert, hy]
  · simp [hg, Ne.symm hg]

variable {s s' : Store} {f : Nat} {x : String} {slot : Option (Option Value)}

/-- The slot in which they differ. -/
theorem here (h : Changed s s' f x slot) : s'.slot? f x = slot := by
  rw [h.slots, if_pos ⟨rfl, rfl⟩]

/-- All other slots are the same. -/
theorem elsewhere (h : Changed s s' f x slot) {g : Nat} {y : String} (hne : ¬ (f = g ∧ x = y)) :
    s'.slot? g y = s.slot? g y := by
  rw [h.slots, if_neg hne]

/-- Fields are no slots. -/
theorem field (h : Changed s s' f x slot) (i : Nat) (y : String) : s'.field? i y = s.field? i y := by
  rw [Store.field?, h.objects, Store.field?]

end Changed

/-- A frame without names shows nothing. -/
theorem slot?_push_empty (s : Store) (g : Nat) (y : String) :
    Store.slot? { s with frames := s.frames.push .empty } g y = s.slot? g y := by
  simp only [Store.slot?, Array.getElem?_push]
  split
  · rename_i hg
    subst hg
    simp
  · rfl

/-! ## Larger worlds

  A world says which frame and which cell belong together.  It only ever grows. -/

namespace World

/-- The world in which a cell stands for one more name of a frame, which may be declared there at
    once. -/
def claim (W : World) (f : Nat) (x : String) (c : Nat) (declared : Bool) : World :=
  { W with
    cell := fun g y => if f = g ∧ x = y then some c else W.cell g y
    filled := fun g y => if f = g ∧ x = y then declared else W.filled g y }

/-- The world in which the name is declared in the frame. -/
def fill (W : World) (f : Nat) (x : String) : World :=
  { W with filled := fun g y => if f = g ∧ x = y then true else W.filled g y }

/-- The world with one more frame. -/
def add (W : World) (f : Nat) (ℓ : Layer) : World :=
  { W with layer := fun g => if f = g then some ℓ else W.layer g }

/-- The name has its cell. -/
theorem claim_here (W : World) (f : Nat) (x : String) (c : Nat) (declared : Bool) :
    (W.claim f x c declared).cell f x = some c :=
  if_pos ⟨rfl, rfl⟩

/-- Other names have the cells that they had. -/
theorem claim_elsewhere (W : World) {f g : Nat} {x y : String} (c : Nat) (declared : Bool)
    (h : ¬ (f = g ∧ x = y)) : (W.claim f x c declared).cell g y = W.cell g y :=
  if_neg h

/-- A new name makes a larger world, in which one frame is looser. -/
theorem later_claim {W : World} {f : Nat} {x : String} (h : W.cell f x = none)
    (h' : W.filled f x = false) (c : Nat) (declared : Bool) :
    Later (· = f) W (W.claim f x c declared) := by
  refine ⟨fun _ _ h => h, fun g y c' hc => ?_, fun g y hy => ?_, fun g ℓ _ hne => ⟨?_, ?_⟩⟩
  · rw [claim_elsewhere W c, hc]
    rintro ⟨rfl, rfl⟩
    rw [h] at hc
    cases hc
  · refine (if_neg ?_).trans hy
    rintro ⟨rfl, rfl⟩
    rw [h'] at hy
    cases hy
  · exact funext fun y => if_neg fun heq => hne heq.1.symm
  · exact funext fun y => if_neg fun heq => hne heq.1.symm

/-- So does a name that is declared. -/
theorem later_fill (W : World) (f : Nat) (x : String) : Later (· = f) W (W.fill f x) := by
  refine ⟨fun _ _ h => h, fun _ _ _ h => h, fun g y hy => ?_, fun g ℓ _ hne => ⟨rfl, ?_⟩⟩
  · show (if _ then _ else _) = true
    split
    · rfl
    · exact hy
  · exact funext fun y => if_neg fun heq => hne heq.1.symm

/-- No frame of the program gets a new name where the frame is that of the globals. -/
theorem later_fill_of_none {W : World} {f : Nat} (h : W.layer f = none) (x : String) :
    Later Fixed W (W.fill f x) :=
  (Later.refl W).close h (later_fill W f x)

/-- Of a name that is declared already this says nothing new. -/
theorem fill_eq {W : World} {f : Nat} {x : String} (h : W.filled f x = true) : W.fill f x = W := by
  have hfilled : (W.fill f x).filled = W.filled := by
    funext g y
    show (if _ then _ else _) = _
    split
    · rename_i heq
      rw [← heq.1, ← heq.2, h]
    · rfl
  show World.mk W.cell (W.fill f x).filled W.layer = W
  rw [hfilled]

/-- A new frame changes no other. -/
theorem later_add {loose : Nat → Prop} {W : World} {f : Nat} (h : W.layer f = none) (ℓ : Layer) :
    Later loose W (W.add f ℓ) := by
  refine ⟨fun g ℓ' hg => ?_, fun _ _ _ h => h, fun _ _ h => h, fun _ _ _ _ => ⟨rfl, rfl⟩⟩
  have hne : f ≠ g := by
    rintro rfl
    rw [h] at hg
    cases hg
  exact (if_neg hne).trans hg

/-- The new frame is one of the layer. -/
theorem add_here (W : World) (f : Nat) (ℓ : Layer) : (W.add f ℓ).layer f = some ℓ := if_pos rfl

end World

/-! ## Steps

  Each change on one side with its counterpart on the other, and the world in which they agree again. -/

namespace Agree

variable {L : Lore} {E : Nat → String → Prop} {W : World} {s s' : Store} {t : State}

/-- A frame that is still to be made has no layer. -/
theorem unframed (h : Agree L E W s t) : W.layer s.frames.size = none := by
  cases hf : W.layer s.frames.size with
  | none => rfl
  | some ℓ => exact absurd ((h.framed _).mp ⟨ℓ, hf⟩).2 (Nat.lt_irrefl _)

/-- The frame of the globals has none. -/
theorem layer_global (h : Agree L E W s t) : W.layer 0 = none := by
  cases hf : W.layer 0 with
  | none => rfl
  | some ℓ => exact absurd ((h.framed 0).mp ⟨ℓ, hf⟩).1 (Nat.lt_irrefl _)

/-- The number of a cell that stands for a name is that of a cell. -/
theorem cell_lt (h : Agree L E W s t) {f : Nat} {x : String} {c : Nat} (hc : W.cell f x = some c) :
    c < t.cells.size := by
  obtain ⟨cell, hcell, -⟩ := h.named f x c hc
  exact (Array.getElem?_eq_some_iff.mp hcell).1

/-- A name with a cell is one of a frame that is there, and no global. -/
theorem frame_lt (h : Agree L E W s t) {f : Nat} {x : String} {c : Nat} (hc : W.cell f x = some c) :
    0 < f ∧ f < s.frames.size := by
  obtain ⟨ℓ, hℓ, -⟩ := h.inside f x c hc
  exact (h.framed f).mp ⟨ℓ, hℓ⟩

/-- There are no cells for a frame that is still to be made. -/
theorem new_frame (h : Agree L E W s t) (x : String) : W.cell s.frames.size x = none := by
  cases hc : W.cell s.frames.size x with
  | none => rfl
  | some c => exact absurd (h.frame_lt hc).2 (Nat.lt_irrefl _)

/-- A name of a frame for which there is no cell is not declared. -/
theorem unfilled (h : Agree L E W s t) {f : Nat} {x : String} {ℓ : Layer} (hf : W.layer f = some ℓ)
    (hn : W.cell f x = none) : W.filled f x = false := by
  have hpos := ((h.framed f).mp ⟨ℓ, hf⟩).1
  rw [← h.filled f x (Nat.ne_of_gt hpos), h.unnamed f x (Nat.ne_of_gt hpos) hn]
  rfl

/-- More names may be excused. -/
theorem excuse (h : Agree L E W s t) {E' : Nat → String → Prop} (hE : ∀ f x, E f x → E' f x) :
    Agree L E' W s t := by
  refine { h with named := fun f x c hc => ?_, excused := fun f x hf => hE f x (h.excused f x hf) }
  obtain ⟨cell, hcell, halike, hempty⟩ := h.named f x c hc
  exact ⟨cell, hcell, halike, fun he => hE f x (hempty he)⟩

/-- More may be known. -/
theorem know {L' : Lore} {E' : Nat → String → Prop} (h : Agree L E W s t)
    (hv : ∀ p, L.visited p → L'.visited p) (hμ : ∀ μ, L.lived μ → L'.lived μ)
    (hE : ∀ f x, E f x → E' f x) (hexcused : ∀ f x, Unsupplied L'.lived f x → E' f x) :
    Agree L' E' W s t := by
  have hw : Later Fixed W W := .refl W
  refine { h with
    named := fun f x c hc => ?_
    made := fun f ℓ hf => (h.made f ℓ hf).mono hμ hv
    excused := hexcused
    globals := fun x => (h.globals x).mono hv hw
    fields := fun i x => related_imp (h.fields i x) fun _ _ ha => ha.mono hv hw }
  obtain ⟨cell, hcell, halike, hempty⟩ := h.named f x c hc
  exact ⟨cell, hcell, halike.mono hv hw, fun he => hE f x (hempty he)⟩

/-- A name of a frame gets a value.  It needs no excuse any longer. -/
theorem fill {E' : Nat → String → Prop} (h : Agree L E' W s t) {f c : Nat} {x : String}
    (hc : W.cell f x = some c) {slot : Option Value} {slot' : Option (Value Scopes)}
    (hs : Changed s s' f x (some slot)) (hslot : Option.Rel (Alike L.visited W) slot slot')
    (hholds : ∀ ℓ, W.layer f = some ℓ → Holds ℓ.kind (some slot))
    (hE : ∀ g y, E' g y → E g y ∨ f = g ∧ x = y) (hexcused : ∀ g y, Unsupplied L.lived g y → E g y) :
    Agree L E (W.fill f x) s' { t with cells := t.cells.setIfInBounds c (.declared slot') } := by
  have hl := W.later_fill f x
  exact {
    framed := fun g => by rw [hs.size]; exact h.framed g
    nonempty := by rw [hs.size]; exact h.nonempty
    inside := h.inside
    once := h.once
    unnamed := fun g y hg hn => by
      rw [hs.elsewhere, h.unnamed g y hg hn]
      rintro ⟨rfl, rfl⟩
      exact absurd (hn.symm.trans hc) nofun
    filled := fun g y hg => by
      show _ = if _ then _ else _
      rw [hs.slots]
      split
      · rfl
      · exact h.filled g y hg
    named := fun g y c' hc' => by
      -- The name that gets the value, and all others.
      by_cases heq : f = g ∧ x = y
      · obtain ⟨rfl, rfl⟩ := heq
        cases hc.symm.trans hc'
        refine ⟨.declared slot', by simp [h.cell_lt hc], ?_, fun he => ?_⟩
        · rw [hs.here]
          have hslot' := related_imp hslot fun _ _ ha => ha.mono (fun _ hp => hp) hl
          cases slot' <;> exact .some hslot'
        · cases slot' <;> cases he
      · obtain ⟨cell, hcell, halike, hempty⟩ := h.named g y c' hc'
        have hne : c ≠ c' := by
          rintro rfl
          exact heq (h.once f x g y c hc hc')
        refine ⟨cell, by rw [Array.getElem?_setIfInBounds_ne hne, hcell], ?_, fun he => ?_⟩
        · rw [hs.elsewhere heq]
          exact halike.mono (fun _ hp => hp) hl
        · exact (hE g y (hempty he)).resolve_right heq
    holds := fun g ℓ y c' hg hc' => by
      by_cases heq : f = g ∧ x = y
      · obtain ⟨rfl, rfl⟩ := heq
        rw [hs.here]
        exact hholds ℓ hg
      · rw [hs.elsewhere heq]
        exact h.holds g ℓ y c' hg hc'
    made := h.made
    excused := hexcused
    globals := fun y => by
      rw [hs.elsewhere]
      · exact (h.globals y).mono (fun _ hp => hp) hl
      · rintro ⟨rfl, rfl⟩
        exact absurd (h.frame_lt hc).1 (Nat.lt_irrefl _)
    objects := by rw [hs.objects]; exact h.objects
    fields := fun i y => by
      rw [hs.field]
      exact related_imp (h.fields i y) fun _ _ ha => ha.mono (fun _ hp => hp) hl
    identity := hs.identity.trans h.identity }

/-- A global name gets a value, or is there without one. -/
theorem global (h : Agree L E W s t) {x : String} {slot : Option Value}
    {slot' : Option (Value Scopes)} (hslot : Option.Rel (Alike L.visited W) slot slot') :
    Agree L E (W.fill 0 x) (s.put 0 x slot) { t with globals := t.globals.insert x slot' } := by
  have hs := Changed.put h.nonempty x slot
  have hl := W.later_fill 0 x
  -- The globals are one frame, so what is agreed on about all others stays.
  have hother : ∀ g y, g ≠ 0 → (s.put 0 x slot).slot? g y = s.slot? g y := fun g y hg =>
    hs.elsewhere fun heq => hg heq.1.symm
  have hpos : ∀ g y c, W.cell g y = some c → g ≠ 0 := fun g y c hc => Nat.ne_of_gt (h.frame_lt hc).1
  exact {
    framed := fun g => by rw [hs.size]; exact h.framed g
    nonempty := by rw [hs.size]; exact h.nonempty
    inside := h.inside
    once := h.once
    unnamed := fun g y hg hn => by rw [hother g y hg]; exact h.unnamed g y hg hn
    filled := fun g y hg => by
      rw [hother g y hg, h.filled g y hg]
      exact (if_neg fun heq => hg heq.1.symm).symm
    named := fun g y c hc => by
      obtain ⟨cell, hcell, halike, hempty⟩ := h.named g y c hc
      rw [hother g y (hpos g y c hc)]
      exact ⟨cell, hcell, halike.mono (fun _ hp => hp) hl, hempty⟩
    holds := fun g ℓ y c hg hc => by
      rw [hother g y (hpos g y c hc)]
      exact h.holds g ℓ y c hg hc
    made := h.made
    excused := h.excused
    globals := fun y => by
      rw [hs.slots, Table.get?_insert]
      by_cases hy : x = y
      · subst hy
        simp only [and_self, if_true]
        exact .some (related_imp hslot (fun _ _ ha => ha.mono (fun _ hp => hp) hl))
      · simp only [hy, and_false, if_false]
        exact (h.globals y).mono (fun _ hp => hp) hl
    objects := h.objects
    fields := fun i y => related_imp (h.fields i y) fun _ _ ha => ha.mono (fun _ hp => hp) hl
    identity := h.identity }

/-- A frame gets a name, for which there is a new cell. -/
theorem name (h : Agree L E W s t) {f : Nat} {x : String} {ℓ : Layer} (cell : Cell)
    {slot : Option (Option Value)} (hf : W.layer f = some ℓ) (hx : ℓ.scope.contains x = true)
    (hn : W.cell f x = none) (hs : Changed s s' f x slot)
    (hslot : SlotAlike L.visited W slot cell.slot) (hholds : Holds ℓ.kind slot)
    (hE : cell.slot = none → E f x) :
    Agree L E (W.claim f x t.cells.size slot.isSome) s' { t with cells := t.cells.push cell } := by
  have hl : Later (· = f) W (W.claim f x t.cells.size slot.isSome) :=
    World.later_claim hn (h.unfilled hf hn) _ _
  have hframe := (h.framed f).mp ⟨ℓ, hf⟩
  exact {
    framed := fun g => by rw [hs.size]; exact h.framed g
    nonempty := by rw [hs.size]; exact h.nonempty
    inside := fun g y c hc => by
      -- The new name, and all others; in the proofs that follow, too.
      by_cases heq : f = g ∧ x = y
      · obtain ⟨rfl, rfl⟩ := heq
        exact ⟨ℓ, hf, hx⟩
      · rw [World.claim_elsewhere W _ _ heq] at hc
        exact h.inside g y c hc
    once := fun g y g' y' c hc hc' => by
      by_cases heq : f = g ∧ x = y
      · obtain ⟨rfl, rfl⟩ := heq
        rw [World.claim_here] at hc
        cases hc
        by_cases heq' : f = g' ∧ x = y'
        · exact heq'
        · rw [World.claim_elsewhere W _ _ heq'] at hc'
          exact absurd (h.cell_lt hc') (Nat.lt_irrefl _)
      · rw [World.claim_elsewhere W _ _ heq] at hc
        by_cases heq' : f = g' ∧ x = y'
        · obtain ⟨rfl, rfl⟩ := heq'
          rw [World.claim_here] at hc'
          cases hc'
          exact absurd (h.cell_lt hc) (Nat.lt_irrefl _)
        · rw [World.claim_elsewhere W _ _ heq'] at hc'
          exact h.once g y g' y' c hc hc'
    unnamed := fun g y hg hc => by
      by_cases heq : f = g ∧ x = y
      · obtain ⟨rfl, rfl⟩ := heq
        rw [World.claim_here] at hc
        cases hc
      · rw [World.claim_elsewhere W _ _ heq] at hc
        rw [hs.elsewhere heq, h.unnamed g y hg hc]
    filled := fun g y hg => by
      show _ = if _ then _ else _
      rw [hs.slots]
      split
      · rfl
      · exact h.filled g y hg
    named := fun g y c hc => by
      by_cases heq : f = g ∧ x = y
      · obtain ⟨rfl, rfl⟩ := heq
        rw [World.claim_here] at hc
        cases hc
        refine ⟨cell, by simp, ?_, hE⟩
        rw [hs.here]
        exact hslot.mono (fun _ hp => hp) hl
      · rw [World.claim_elsewhere W _ _ heq] at hc
        obtain ⟨cell', hcell, halike, hempty⟩ := h.named g y c hc
        refine ⟨cell', ?_, ?_, hempty⟩
        · rw [Array.getElem?_push_lt (h.cell_lt hc), ← hcell]
          exact (Array.getElem?_eq_getElem _).symm
        · rw [hs.elsewhere heq]
          exact halike.mono (fun _ hp => hp) hl
    holds := fun g ℓ' y c hg hc => by
      by_cases heq : f = g ∧ x = y
      · obtain ⟨rfl, rfl⟩ := heq
        cases hf.symm.trans hg
        rw [hs.here]
        exact hholds
      · rw [World.claim_elsewhere W _ _ heq] at hc
        rw [hs.elsewhere heq]
        exact h.holds g ℓ' y c hg hc
    made := h.made
    excused := h.excused
    globals := fun y => by
      rw [hs.elsewhere]
      · exact (h.globals y).mono (fun _ hp => hp) hl
      · rintro ⟨rfl, rfl⟩
        exact absurd hframe.1 (Nat.lt_irrefl _)
    objects := by rw [hs.objects]; exact h.objects
    fields := fun i y => by
      rw [hs.field]
      exact related_imp (h.fields i y) fun _ _ ha => ha.mono (fun _ hp => hp) hl
    identity := hs.identity.trans h.identity }

/-- A frame without names is made for a layer. -/
theorem frame (h : Agree L E W s t) {ℓ : Layer} (hm : Made L.lived L.visited s.frames.size ℓ) :
    Agree L E (W.add s.frames.size ℓ) { s with frames := s.frames.push .empty } t := by
  have hl : Later Fixed W (W.add s.frames.size ℓ) := World.later_add h.unframed ℓ
  -- A frame with a layer is the new one, or was there before.
  have hlayer : ∀ {g ℓ'}, (W.add s.frames.size ℓ).layer g = some ℓ' →
      g = s.frames.size ∧ ℓ' = ℓ ∨ W.layer g = some ℓ' := by
    intro g ℓ' hg
    by_cases heq : s.frames.size = g
    · subst heq
      rw [World.add_here] at hg
      cases hg
      exact .inl ⟨rfl, rfl⟩
    · exact .inr ((if_neg heq).symm.trans hg)
  exact {
    framed := fun g => by
      have hpos := h.nonempty
      simp only [Array.size_push]
      constructor
      · rintro ⟨ℓ', hg⟩
        rcases hlayer hg with ⟨rfl, -⟩ | hg
        · omega
        · have := (h.framed g).mp ⟨ℓ', hg⟩
          omega
      · rintro ⟨hlow, hhigh⟩
        by_cases heq : g = s.frames.size
        · exact ⟨ℓ, heq ▸ World.add_here W _ ℓ⟩
        · obtain ⟨ℓ', hg⟩ := (h.framed g).mpr ⟨hlow, by omega⟩
          exact ⟨ℓ', hl.layer g ℓ' hg⟩
    nonempty := by simp
    inside := fun g y c hc => by
      obtain ⟨ℓ', hg, hy⟩ := h.inside g y c hc
      exact ⟨ℓ', hl.layer g ℓ' hg, hy⟩
    once := h.once
    unnamed := fun g y hg hc => by rw [slot?_push_empty]; exact h.unnamed g y hg hc
    filled := fun g y hg => by rw [slot?_push_empty]; exact h.filled g y hg
    named := fun g y c hc => by
      obtain ⟨cell, hcell, halike, hempty⟩ := h.named g y c hc
      refine ⟨cell, hcell, ?_, hempty⟩
      rw [slot?_push_empty]
      exact halike.mono (fun _ hp => hp) hl
    holds := fun g ℓ' y c hg hc => by
      rw [slot?_push_empty]
      rcases hlayer hg with ⟨rfl, -⟩ | hg
      · exact absurd (h.frame_lt hc).2 (Nat.lt_irrefl _)
      · exact h.holds g ℓ' y c hg hc
    made := fun g ℓ' hg => by
      rcases hlayer hg with ⟨rfl, rfl⟩ | hg
      · exact hm
      · exact h.made g ℓ' hg
    excused := h.excused
    globals := fun y => by
      rw [slot?_push_empty]
      exact (h.globals y).mono (fun _ hp => hp) hl
    objects := h.objects
    fields := fun i y => related_imp (h.fields i y) fun _ _ ha => ha.mono (fun _ hp => hp) hl
    identity := h.identity }

/-- The host does not matter. -/
theorem withHost (h : Agree L E W s t) (host : Host) : Agree L E W s { t with host := host } :=
  { h with }

/-- Functions and classes get the same identities. -/
theorem nextIdentity (h : Agree L E W s t) :
    Agree L E W { s with nextIdentity := s.nextIdentity + 1 }
      { t with nextIdentity := t.nextIdentity + 1 } :=
  { h with identity := congrArg (· + 1) h.identity }

/-- A new instance has no fields. -/
theorem object (h : Agree L E W s t) :
    Agree L E W { s with objects := s.objects.push .empty }
      { t with objects := t.objects.push .empty } := by
  refine { h with objects := by simp [h.objects], fields := fun i x => ?_ }
  have hfields := h.fields i x
  simp only [Store.field?, Array.getElem?_push] at hfields ⊢
  rw [← h.objects]
  split
  · exact .none
  · exact hfields

/-- A field of an instance gets a value. -/
theorem putField (h : Agree L E W s t) (i : Nat) (x : String) {v : Value} {r : Value Scopes}
    (ha : Alike L.visited W v r) :
    Agree L E W (s.putField i x v) { t with objects := t.objects.modify i (·.insert x r) } := by
  refine { h with objects := by simp [Store.putField, h.objects], fields := fun j y => ?_ }
  have hfields := h.fields j y
  simp only [Store.field?, Store.putField, Array.getElem?_modify] at hfields ⊢
  by_cases hj : i = j
  · subst hj
    by_cases hi : i < s.objects.size
    · have hi' : i < t.objects.size := h.objects ▸ hi
      rw [Array.getElem?_eq_getElem hi, Array.getElem?_eq_getElem hi'] at hfields ⊢
      simp only [if_true, Option.map_some, Option.bind_some, Table.get?_insert] at hfields ⊢
      split
      · exact .some ha
      · exact hfields
    · have hi' : ¬ i < t.objects.size := h.objects ▸ hi
      simp [Array.getElem?_eq_none (Nat.le_of_not_lt hi), Array.getElem?_eq_none (Nat.le_of_not_lt hi')]
  · simp only [if_neg hj]
    exact hfields

end Agree

end Lox.Lexical
