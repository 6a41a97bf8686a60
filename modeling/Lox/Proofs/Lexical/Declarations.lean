import Lox.Proofs.Lexical.Names

/-!
  Declarations, followed.

  The names of the current frame are those of the innermost scope, no more and no less (`Exact`); the
  frame may have got fewer of them, as a name has a cell before it is declared in its frame.  So a
  declaration, which on the machine fails for a name that the frame has, never does so in a scope.

  A declaration is followed in two halves, as the reference makes it in two.  First the name is announced: it
  gets an empty cell, and the machine does nothing (`announce_follows`).  Then, behind the initializer, it is
  settled: the cell gets its value, and the machine declares the name (`settle_follows`).  In between the name
  is pending, and this is its excuse.  The globals have no scope; there a name may be declared again and fails
  on both sides alike.
-/

namespace Lox.Lexical

open Scope

/-- For the names of the current frame there are cells as far as the innermost scope has the names. -/
def Exact (W : World) : List Nat → Scopes → Prop
  | f :: _, t :: _ => ∀ x, W.cell f x = t.get? x
  | _, _ => True

/-- The frame is the current one. -/
def Current (fs : List Nat) (f : Nat) : Prop := fs.head? = some f

/-- Outside all scopes no frame of the program is current. -/
theorem not_current_nil {f : Nat} : ¬ Current [] f := (Option.some_ne_none f ·.symm)

/-- The current frame is the innermost one of the chain. -/
theorem Current.frame {env : Env} {fs : List Nat} {f : Nat} (h : Current fs f) (hc : env.Has fs) :
    env.frame = f := by
  cases fs with
  | nil => cases h
  | cons g fs =>
    cases h
    exact List.head_eq_of_cons_eq hc

/-- The name is excused, or it is one of the current frame that is being declared. -/
def Pending (E : Nat → String → Prop) (fs : List Nat) (x : String) (f : Nat) (y : String) : Prop :=
  E f y ∨ Current fs f ∧ x = y

/-- The layer of the current frame has the name, which is one of its own choice. -/
def Admits (ls : List Layer) (x : String) : Prop :=
  ∀ ℓ ∈ ls.head?, ℓ.scope.contains x = true ∧ ℓ.kind = .body

/-- Behind a declaration the innermost scope has the name. -/
theorem head_of_claims {x : String} {w w' : Walk} (h : Claims x w w') :
    ∀ a ∈ w'.scopes.head?, Table.contains a x = true := by
  intro a ha
  cases hs : w.scopes with
  | nil =>
    rw [h.outside hs] at ha
    cases ha
  | cons b rest =>
    obtain ⟨b', hs', hb'⟩ := h.inside b rest hs
    rw [hs'] at ha
    cases ha
    rw [hb', decide_eq_true rfl, Bool.true_or]

/-- A layer admits what the walk has claimed in its scope, if this is no name of its own. -/
theorem admits_of_claims {x : String} {w w' : Walk} {ls : List Layer} (h : Claims x w w')
    (hc : Covers w'.scopes ls) (hx : x ≠ "this" ∧ x ≠ "super") : Admits ls x := by
  intro ℓ hℓ
  have hhead := head_of_claims h
  generalize w'.scopes = scopes at hc hhead
  cases hc with
  | nil => cases hℓ
  | cons hf _ =>
    cases hℓ
    have hcontains := hhead _ rfl
    exact ⟨hf.names x hcontains, hf.body_of_contains hx hcontains⟩

/-- The names of the current frame stay what they are where the frame is left alone. -/
theorem Exact.later {loose : Nat → Prop} {W W' : World} {fs : List Nat} {ls : List Layer}
    {as : List Scope} {ts : Scopes} (h : Exact W fs ts) (hl : Linked W fs ls as ts)
    (hw : Later loose W W') (hloose : ∀ f, Current fs f → ¬ loose f) : Exact W' fs ts := by
  cases hl with
  | nil => trivial
  | cons hf _ _ _ =>
    intro x
    rw [(hw.kept _ _ hf (hloose _ rfl)).1]
    exact h x

/-- To declare a name adds no cell. -/
theorem Exact.fill {W : World} {fs : List Nat} {ts : Scopes} (h : Exact W fs ts) (f : Nat)
    (x : String) : Exact (W.fill f x) fs ts := by
  cases fs <;> cases ts <;> exact h

/-- The current frame gets no names where all frames are left alone. -/
theorem Linked.kept {W W' : World} {fs : List Nat} {ls : List Layer} {as : List Scope} {ts : Scopes}
    (h : Linked W fs ls as ts) (hw : Later Fixed W W') {f : Nat} (hf : Current fs f) :
    W'.filled f = W.filled f := by
  cases h with
  | nil => cases hf
  | cons hlayer _ _ _ =>
    cases hf
    exact (hw.kept _ _ hlayer id).2

section Steps

variable {L : Lore} {E : Nat → String → Prop} {W : World} {m : Machine} {t : State}
  {fs : List Nat} {ls : List Layer} {w w' : Walk} {ts : Scopes}

/-- A name that is new to the innermost scope gets a cell. -/
theorem Linked.claim {f : Nat} {ℓ : Layer} {a a' : Scope} {as : List Scope} {t₀ : Table Nat}
    {x : String} {n : Nat} {declared : Bool} (hl : Linked W (f :: fs) (ℓ :: ls) (a :: as) (t₀ :: ts))
    (he : Exact W (f :: fs) (t₀ :: ts)) (hw : Later (· = f) W (W.claim f x n declared))
    (ha : ∀ y, a'.contains y = (decide (x = y) || a.contains y)) :
    Linked (W.claim f x n declared) (f :: fs) (ℓ :: ls) (a' :: as) (t₀.insert x n :: ts) ∧
      Exact (W.claim f x n declared) (f :: fs) (t₀.insert x n :: ts) := by
  have hexact : Exact (W.claim f x n declared) (f :: fs) (t₀.insert x n :: ts) := by
    intro y
    rw [Table.get?_insert]
    by_cases hy : x = y
    · subst hy
      rw [if_pos rfl]
      exact World.claim_here W f x n declared
    · rw [if_neg hy, World.claim_elsewhere W n declared fun h => hy h.2]
      exact he y
  cases hl with
  | cons hf hn _ hrest =>
    refine ⟨.cons (hw.layer f ℓ hf) (fun y => ?_) (fun y c hc => ?_) (hrest.later hw), hexact⟩
    · rw [Table.contains_insert, ha, hn]
    · rw [hexact y, hc]

/-- A name that is new to the scope of a frame gets a cell, and the frame what the cell holds. -/
theorem claim_follows {f : Nat} {ℓ : Layer} {x : String} {s : Store}
    {slot : Option (Option Value)} (cell : Cell) (hi : InStep L E W m t)
    (hl : Linked W (f :: fs) (ℓ :: ls) w.scopes ts) (he : Exact W (f :: fs) ts)
    (hnew : Unclaimed x w) (hclaims : Claims x w w') (hscope : ℓ.scope.contains x = true)
    (hbody : ℓ.kind = .body) (hs : m.store.slot? f x = none → Changed m.store s f x slot)
    (hslot : SlotAlike L.visited W slot cell.slot) (hE : cell.slot = none → E f x) :
    m.store.slot? f x = none ∧ ∃ W' ts' t', announce x cell ts t = .done ts' t' ∧
      Later (· = f) W W' ∧ InStep L E W' { m with store := s } t' ∧
      Linked W' (f :: fs) (ℓ :: ls) w'.scopes ts' ∧ Exact W' (f :: fs) ts' ∧
      W'.filled f x = slot.isSome := by
  generalize hscopes : w.scopes = scopes at hl
  cases hl with
  | @cons _ _ a t₀ _ _ as ts hf hn hc hrest =>
    obtain ⟨a', hscopes', ha'⟩ := hclaims.inside a as hscopes
    have ha : a.contains x = false := hnew a (by rw [hscopes]; rfl)
    have hcell : W.cell f x = none := by
      rw [he x]
      rw [← hn, Table.contains] at ha
      exact Option.isNone_iff_eq_none.mp (Option.isSome_eq_false_iff.mp ha)
    have hpos := Nat.ne_of_gt ((hi.agree.framed f).mp ⟨ℓ, hf⟩).1
    have hnone := hi.agree.unnamed f x hpos hcell
    have hw := World.later_claim hcell (hi.agree.unfilled hf hcell) t.cells.size slot.isSome
    have hagree := hi.agree.name cell hf hscope hcell (hs hnone) hslot (by rw [hbody]; trivial) hE
    have hlinked := Linked.claim (.cons hf hn hc hrest) he hw ha'
    rw [hscopes']
    exact ⟨hnone, W.claim f x t.cells.size slot.isSome, t₀.insert x t.cells.size :: ts, _, rfl, hw,
      ⟨hagree, hi.host, hi.resolution⟩, hlinked.1, hlinked.2, if_pos ⟨rfl, rfl⟩⟩

/-- A name is announced: it gets a cell, which is empty. -/
theorem announce_follows (hi : InStep L E W m t) (hl : Linked W fs ls w.scopes ts)
    (he : Exact W fs ts) {x : String} (hnew : Unclaimed x w) (hclaims : Claims x w w')
    (hin : Admits ls x) :
    ∃ W' ts' t', announce x .empty ts t = .done ts' t' ∧ Later (Current fs) W W' ∧
      InStep L (Pending E fs x) W' m t' ∧ Linked W' fs ls w'.scopes ts' ∧ Exact W' fs ts' ∧
      ∀ f, Current fs f → W'.filled f x = false := by
  have hpending : InStep L (Pending E fs x) W m t := hi.excuse fun _ _ h => .inl h
  generalize hscopes : w.scopes = scopes at hl
  cases hl with
  | nil =>
    refine ⟨W, [], t, rfl, .refl W, hpending, ?_, trivial, nofun⟩
    rw [hclaims.outside hscopes]
    exact .nil
  | @cons f ℓ a t₀ fs ls as ts hf hn hc hrest =>
    obtain ⟨hscope, hbody⟩ := hin ℓ rfl
    have hl : Linked W (f :: fs) (ℓ :: ls) w.scopes (t₀ :: ts) := by
      rw [hscopes]
      exact .cons hf hn hc hrest
    obtain ⟨-, W', ts', t', hrun, hw, hi', hl', he', hfilled⟩ :=
      claim_follows .empty hpending hl he hnew hclaims hscope hbody .same .none fun _ =>
        .inr ⟨rfl, rfl⟩
    refine ⟨W', ts', t', hrun, hw.loosen ?_, hi', hl', he', ?_⟩
    · rintro g rfl
      rfl
    · rintro g hg
      cases hg
      exact hfilled

/-- The frame of a declaration is the current one, or that of the globals. -/
theorem Linked.current {as : List Scope} {env : Env} {x : String} (hl : Linked W fs ls as ts)
    (hc : env.Has fs) (hhead : ∀ a ∈ as.head?, a.contains x = true) :
    Target env as x env.frame ∧ (fs = [] ∧ env.frame = Env.global.frame ∨ Current fs env.frame) := by
  cases hl with
  | nil =>
    have hframe : env.frame = Env.global.frame := List.head_eq_of_cons_eq hc
    exact ⟨hframe, .inl ⟨rfl, hframe⟩⟩
  | @cons f ℓ a t₀ fs ls as ts _ _ _ _ =>
    have hframe : env.frame = f := List.head_eq_of_cons_eq hc
    refine ⟨?_, .inr (congrArg some hframe.symm)⟩
    rw [Target, List.findIdx?_cons, hhead a rfl]
    rfl

/-- A name that has been announced is declared, with a value or without. -/
theorem settle_follows {as : List Scope} {name : Token}
    (hi : InStep L (Pending E fs name.lexeme) W m t) (hexcused : ∀ g y, Unsupplied L.lived g y → E g y)
    (hl : Linked W fs ls as ts) (he : Exact W fs ts) (hc : m.env.Has fs) (hcover : Covers as ls)
    (hn : name.Plain) (hhead : ∀ a ∈ as.head?, a.contains name.lexeme = true)
    (hunfilled : ∀ f, Current fs f → W.filled f name.lexeme = false) {slot : Option Value}
    {slot' : Option (Value Scopes)} (hslot : Option.Rel (Alike L.visited W) slot slot') :
    Follows L E W (Current fs) (fs = []) (fun W' _ _ => Exact W' fs ts) (Machine.define name slot) m
      (settle ts name slot') t := by
  have hrun : Machine.define name slot m =
      Machine.atToken name (Store.define m.env.frame name.lexeme slot) m := rfl
  obtain ⟨htarget, hframe⟩ := hl.current hc hhead
  have hput (hE : ∀ g y, Pending E fs name.lexeme g y → E g y ∨ m.env.frame = g ∧ name.lexeme = y)
      (hglobal : find? ts name.lexeme = none → ∀ g y, Pending E fs name.lexeme g y → E g y) :
      Agree L E (W.fill m.env.frame name.lexeme) (m.store.put m.env.frame name.lexeme slot)
        (t.put ts name.lexeme slot') :=
    hi.agree.put hl hc hcover ⟨hn.not_this, hn.not_super⟩ htarget hslot hE hglobal hexcused
  have hafter := hi.agree.slot hl hc htarget
  unfold Follows
  rw [hrun, atToken_define, settle]
  rcases hframe with ⟨rfl, hframe⟩ | hframe
  · cases hl with
    | nil =>
      have hE : ∀ g y, Pending E [] name.lexeme g y → E g y := fun g y h =>
        h.resolve_right fun h => not_current_nil h.1
      have hdeclared : (m.store.slot? m.env.frame name.lexeme).isSome =
          t.globals.contains name.lexeme := rel_isSome hafter
      rw [hdeclared]
      cases t.globals.contains name.lexeme with
      | true => exact .failed ⟨⟨W, .refl W, hi.excuse fun g y h => .inl (hE g y h)⟩, .inr ⟨rfl, rfl⟩⟩
      | false =>
        have hlater := World.later_fill_of_none hi.agree.layer_global name.lexeme
        rw [hframe] at hput ⊢
        exact .done ⟨_, hlater.loosen fun _ => False.elim, ⟨hput (fun g y h => .inl (hE g y h)) fun _ => hE,
          hi.host.trans (put_host t _ _ _).symm, hi.resolution⟩, rfl, he.fill _ _⟩
  · cases hl with
    | nil => exact absurd hframe not_current_nil
    | @cons f ℓ a t₀ fs ls as ts hf hnames hcells hrest =>
      cases hframe
      have hpos := Nat.ne_of_gt ((hi.agree.framed _).mp ⟨ℓ, hf⟩).1
      have hnone : (m.store.slot? m.env.frame name.lexeme).isSome = false :=
        (hi.agree.filled _ _ hpos).trans (hunfilled _ rfl)
      have hfind : find? (t₀ :: ts) name.lexeme ≠ none := by
        have hcontains := hhead a rfl
        rw [← hnames, Table.contains] at hcontains
        obtain ⟨c, hc⟩ := Option.isSome_iff_exists.mp hcontains
        rw [find?, List.findSome?_cons, hc]
        exact Option.some_ne_none c
      rw [hnone]
      refine .done ⟨_, (World.later_fill W _ _).loosen ?_, ⟨hput (fun g y h => ?_)
        fun h => absurd h hfind, hi.host.trans (put_host t _ _ _).symm, hi.resolution⟩,
        rfl, Exact.fill he _ _⟩
      · rintro g rfl
        rfl
      · refine h.imp_right fun h => ⟨Option.some.inj h.1, h.2⟩

/-- The parameters of a function are declared in its frame, as far as there are arguments. -/
theorem params_follow {f : Nat} {ℓ : Layer} (hbody : ℓ.kind = .body) (params : List Token) :
    ∀ {given : List Value} {given' : List (Value Scopes)} {W : World} {m : Machine} {t : State}
      {w : Walk} {ts : Scopes}, InStep L E W m t → Linked W (f :: fs) (ℓ :: ls) w.scopes ts →
      Exact W (f :: fs) ts → (params.foldl (fun w param => w.bind param) w).problems = #[] →
      (∀ param ∈ params, ℓ.scope.contains param.lexeme = true) →
      List.Forall₂ (Alike L.visited W) given given' →
      (∀ param ∈ params.drop given.length, E f param.lexeme) →
      Follows L E W (· = f) Never (fun W' _ ts' => Linked W' (f :: fs) (ℓ :: ls)
        (params.foldl (fun w param => w.bind param) w).scopes ts' ∧ Exact W' (f :: fs) ts')
        (Machine.defineParams f params given) m (enterParams params given' ts) t := by
  induction params with
  | nil =>
    intro given given' W m t w ts hi hl he _ _ _ _
    have hrun : Machine.defineParams f [] given = pure () := by simp [Machine.defineParams]
    rw [hrun]
    exact .pure hi ⟨hl, he⟩
  | cons param params ih =>
    intro given given' W m t w ts hi hl he hclean hin hgiven hE
    rw [List.foldl_cons] at hclean
    rw [List.forall_mem_cons] at hin
    have hnew := Walk.unclaimed_of_bind ((Effect.binds params _).clean hclean)
    cases hgiven with
    | nil =>
      have hrun : Machine.defineParams f (param :: params) [] = Machine.defineParams f params [] := by
        cases params <;> simp [Machine.defineParams]
      -- Nothing is given for this parameter: the reference announces it, the machine does not declare it.
      rw [List.length_nil, List.drop_zero, List.forall_mem_cons] at hE
      obtain ⟨-, W', ts', t', hannounce, hw, hi', hl', he', -⟩ :=
        claim_follows .empty hi hl he hnew (.bind hnew) hin.1 hbody .same .none fun _ => hE.1
      rw [hrun, enterParams]
      exact .second hannounce ((ih hi' hl' he' hclean hin.2 .nil hE.2).later hw)
    | @cons v r given given' ha hgiven =>
      -- Something is given for it: both declare it, with values that are alike.
      have hlt := ((hi.agree.framed f).mp ⟨ℓ, hl.head_layer⟩).2
      obtain ⟨hnone, W', ts', t', hannounce, hw, hi', hl', he', -⟩ :=
        claim_follows (.holds r) hi hl he hnew (.bind hnew) hin.1 hbody
          (fun _ => .put hlt param.lexeme (some v)) (.some (.some ha)) nofun
      have hdefine : Machine.atToken param (Store.define f param.lexeme (some v)) m =
          .done () { m with store := m.store.put f param.lexeme (some v) } := by
        rw [atToken_define, hnone]
        rfl
      have hrest := ih hi' hl' he' hclean hin.2
        (hgiven.imp fun _ _ h => h.mono (fun _ hp => hp) hw) hE
      rw [Machine.defineParams, enterParams]
      exact .first hdefine rfl (.second hannounce (hrest.later hw))

end Steps

end Lox.Lexical
