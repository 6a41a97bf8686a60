import Lox.Proofs.Counting.Values

/-!
  Steps that are done on both sides.

  On the one side a program is run with its counting loops, on the other what it is lowered to.  From
  states with values that are alike both sides end in the same way, in such states again, with answers
  that are related or with the same error (`Runs`).  One of the sides may be short of fuel (`Side`); it is
  then allowed not to end.

  The rule `Runs` is closed under the ways in which runs are put together (`pure`, `bind`, `map`, reading and
  updating the state), so that two runs that are written alike are related as soon as their steps are.
  There is one lemma for each small step: for names (`lookUp`, `assign`, `announce`, `settle`), for what
  is made anew (`newCell`, `newIdentity`, `newObject`), for properties and methods (`getProperty`,
  The rule `setField`, `superMethod`), for the declaration of a class and for the end of a call (`answer`).  None
  of them spends fuel, and none speaks of loops: those are all in `Lox.Proofs.Counting.Loops`.

  What the sides see of the scopes differs, since the blocks of a lowered loop add scopes that have no
  names.  The steps that only look names up ask for the same visible scopes, and those that declare a name
  for the same innermost scope as well (`Level`).
-/

namespace Lox.Counting

/-- The two sides: that of the programs with counting loops, and that of what they are lowered to. -/
inductive Side where
  | counting | lowered

/-- Both runs ended in the same way, but for the one that may be short of fuel. -/
inductive Ends (short : Side) {α β : Type} (Q : α → β → Prop) :
    Ending State RuntimeError α → Ending Lexical.State RuntimeError β → Prop where
  | done {a b s r} : Q a b → Beside s r → Ends short Q (.done a s) (.done b r)
  | failed {e s r} : Beside s r → Ends short Q (.failed e s) (.failed e r)
  | counting {ending} : short = .counting → Ends short Q .exhausted ending
  | lowered {ending} : short = .lowered → Ends short Q ending .exhausted

/-- From states that are alike both runs end in the same way. -/
def Runs (short : Side) {α β : Type} (Q : α → β → Prop) (x : Run α) (y : Lexical.Run β) : Prop :=
  ∀ s r, Beside s r → Ends short Q (x s) (y r)

variable {short : Side} {α β γ δ : Type} {P : α → β → Prop} {Q : γ → δ → Prop}

namespace Runs

/-- An answer that is given without a step. -/
theorem pure {a : α} {b : β} (h : P a b) : Runs short P (Pure.pure a) (Pure.pure b) :=
  fun _ _ hs => .done h hs

/-- Both sides fail at the same token with the same fault, so they fail alike. -/
theorem failAt (token : Token) (fault : RuntimeFault) :
    Runs short P (failAt token fault) (Lexical.failAt token fault) :=
  fun _ _ hs => .failed hs

/-- What is read of the two states has to be related in all states that are beside each other. -/
theorem read {view : State → α} {view' : Lexical.State → β}
    (h : ∀ s r, Beside s r → P (view s) (view' r)) : Runs short P (.read view) (.read view') :=
  fun s r hs => .done (h s r hs) hs

/-- A change has to keep the states beside each other. -/
theorem update {change : State → State} {change' : Lexical.State → Lexical.State}
    (h : ∀ s r, Beside s r → Beside (change s) (change' r)) :
    Runs short (fun _ _ => True) (.update change) (.update change') :=
  fun s r hs => .done trivial (h s r hs)

/-- Runs one behind the other: the rests have to be related from all answers that are. If a side is short of
    fuel in the first run it is so in the whole. -/
theorem bind {x : Run α} {y : Lexical.Run β} {f : α → Run γ} {g : β → Lexical.Run δ}
    (hx : Runs short P x y) (hf : ∀ a b, P a b → Runs short Q (f a) (g b)) :
    Runs short Q (x >>= f) (y >>= g) := by
  intro s r hs
  have hends := hx s r hs
  generalize hxs : x s = ending, hyr : y r = ending' at hends
  cases hends with
  | done hab hs' =>
    rw [Action.bind_of_done hxs, Action.bind_of_done hyr]
    exact hf _ _ hab _ _ hs'
  | failed hs' =>
    rw [Action.bind_of_failed hxs, Action.bind_of_failed hyr]
    exact .failed hs'
  | counting h =>
    rw [Action.bind_of_exhausted hxs]
    exact .counting h
  | lowered h =>
    rw [Action.bind_of_exhausted hyr]
    exact .lowered h

/-- What is made of the answers is related if the answers are. -/
theorem map {x : Run α} {y : Lexical.Run β} {f : α → γ} {g : β → δ} (hx : Runs short P x y)
    (hf : ∀ a b, P a b → Q (f a) (g b)) : Runs short Q (f <$> x) (g <$> y) := by
  rw [map_eq_pure_bind, map_eq_pure_bind]
  exact hx.bind fun a b hab => .pure (hf a b hab)

/-! ## Names -/

variable {scopes outer : Scopes} {scopes' outer' : Scopes}

/-- A result that may be a fault fails at the same token on both sides. -/
theorem liftAt (token : Token) {result : Except RuntimeFault (Value Sight)}
    {result' : Except RuntimeFault (Value Scopes)} (h : ResultRelated Lowered Lowered result result') :
    Runs short Like (liftAt token result) (Lexical.liftAt token result') := by
  cases h with
  | ok hv => exact .pure hv
  | error => exact failAt token _

/-- Where the same scopes are visible a name means the same cell, so it holds values that are alike or is
    missing on both sides. -/
theorem lookUp (h : visible scopes = visible scopes') (name : Token) :
    Runs short Like (lookUp scopes name) (Lexical.lookUp scopes' name) := by
  intro s r hs
  have hslot := hs.slot? h name.lexeme
  unfold Counting.lookUp Lexical.lookUp
  generalize s.slot? scopes name.lexeme = slot, r.slot? scopes' name.lexeme = slot' at hslot
  cases hslot with
  | none => exact .failed hs
  | some hslot =>
    cases hslot with
    | none => exact .failed hs
    | some hv => exact .done hv hs

/-- An assignment fails where the name is unknown, and this is so on both sides or on neither. -/
theorem assign (h : visible scopes = visible scopes') (name : Token) {v : Value Sight} {v' : Value Scopes}
    (hv : Like v v') :
    Runs short (fun _ _ => True) (assign scopes name v) (Lexical.assign scopes' name v') := by
  intro s r hs
  have hslot := hs.slot? h name.lexeme
  unfold Counting.assign Lexical.assign
  generalize s.slot? scopes name.lexeme = slot, r.slot? scopes' name.lexeme = slot' at hslot
  cases hslot with
  | none => exact .failed hs
  | some _ => exact .done trivial (hs.put h name.lexeme (.some hv))

/-- The next cell has the same number on both sides, which have as many. -/
theorem newCell {slot : Option (Option (Value Sight))} {cell : Lexical.Cell} (h : SlotLike slot cell.slot) :
    Runs short (· = ·) (newCell slot) (Lexical.newCell cell) := by
  intro s r hs
  exact .done hs.cells.size_eq.symm ⟨hs.cells.push h, hs.globals, hs.objects, hs.nextIdentity, hs.host⟩

/-- A name that is announced gets a cell in the innermost scope; at top level nothing is done. -/
theorem announce (h : Level scopes scopes') (name : String) {slot : Option (Option (Value Sight))}
    {cell : Lexical.Cell} (hslot : SlotLike slot cell.slot) :
    Runs short Level (announce name slot scopes) (Lexical.announce name cell scopes') := by
  cases h with
  | top => exact .pure .top
  | inner scope h =>
    refine (newCell hslot).bind ?_
    rintro number _ rfl
    exact .pure (.inner _ h)

/-- A declaration is completed. At top level it fails on both sides if the name is a global already. -/
theorem settle (h : Level scopes scopes') (name : Token) {slot : Option (Value Sight)}
    {slot' : Option (Value Scopes)} (hslot : Option.Rel Like slot slot') :
    Runs short (fun _ _ => True) (settle scopes name slot) (Lexical.settle scopes' name slot') := by
  intro s r hs
  have hknown : r.globals.contains name.lexeme = s.globals.contains name.lexeme := by
    have hglobal := hs.globals name.lexeme
    unfold Table.contains
    -- Only whether there is an entry matters, not what it holds.
    generalize s.globals.get? name.lexeme = found, r.globals.get? name.lexeme = found' at hglobal
    cases hglobal <;> rfl
  unfold Counting.settle Lexical.settle
  rw [h.isEmpty_eq, hknown]
  split
  · exact .failed hs
  · exact .done trivial (hs.put h.visible name.lexeme hslot)

/-! ## Functions and instances

  The steps are those of the reference on either side, with functions that differ in nothing but their text. -/

/-- Functions and classes are numbered alike. -/
theorem newIdentity : Runs short (· = ·) newIdentity Lexical.newIdentity := fun _ _ hs =>
  .done hs.nextIdentity.symm ⟨hs.cells, hs.globals, hs.objects, congrArg (· + 1) hs.nextIdentity, hs.host⟩

/-- Instances are numbered alike, and a new one has no fields on either side. -/
theorem newObject : Runs short (· = ·) newObject Lexical.newObject := fun _ _ hs =>
  .done hs.objects.size_eq.symm ⟨hs.cells, hs.globals, hs.objects.push .empty, hs.nextIdentity, hs.host⟩

variable {c : Closure Sight} {c' : Closure Scopes} {v : Value Sight} {v' : Value Scopes}

/-- The value made of a closure has a new identity, the same on both sides. -/
theorem functionValue (h : Lowered c c') :
    Runs short Like (functionValue c) (Lexical.functionValue c') := by
  refine newIdentity.bind ?_
  rintro identity _ rfl
  exact .pure (.function identity h)

/-- A method that is taken from an instance sees `this` in a scope of its own. -/
theorem bindThis (h : Lowered c c') (hv : Like v v') :
    Runs short Lowered (bindThis c v) (Lexical.bindThis c' v') := by
  refine (newCell (.some (.some hv))).bind ?_
  rintro cell _ rfl
  exact .pure ⟨rfl, h.text, visible_cons h.scopes _, h.isInitializer⟩

/-- A field hides a method of its name; `init` is no property; and what is no instance has none. -/
theorem getProperty (hv : Like v v') (name : Token) :
    Runs short Like (getProperty v name) (Lexical.getProperty v' name) := by
  cases hv with
  | @object identity c c' hc =>
    refine bind (P := Option.Rel Like)
      (.read fun s r hs => related_bind (hs.objects identity) fun _ _ ht => ht name.lexeme)
      fun field field' hfield => ?_
    cases hfield with
    | some hfield => exact .pure hfield
    | none =>
      have hmethod := hc.method? name.lexeme
      dsimp only
      generalize c.method? name.lexeme = found, c'.method? name.lexeme = found' at hmethod
      cases hmethod with
      | none => exact failAt name _
      | some hm =>
        dsimp only
        split
        · exact failAt name _
        · exact (bindThis hm (.object identity hc)).bind fun _ _ hbound => functionValue hbound
  | _ => exact failAt name _

/-- The field is set in the same instance, to values that are alike. -/
theorem setField (object : Nat) (name : Token) (hv : Like v v') :
    Runs short (fun _ _ => True) (setField object name v) (Lexical.setField object name v') :=
  .update fun _ _ hs => ⟨hs.cells, hs.globals,
    hs.objects.modify object fun _ _ ht => ht.insert name.lexeme hv, hs.nextIdentity, hs.host⟩

/-- Both `super` and the `this` beside it are looked up, and the method in the class that `super` stands
    for. -/
theorem superMethod (h : visible scopes = visible scopes') (ref : Ref) (method : Token) :
    Runs short Like (superMethod scopes ref method) (Lexical.superMethod scopes' ref method) := by
  refine (lookUp h ref.name).bind fun v v' hv => ?_
  cases hv with
  | @classOf c c' hc =>
    refine (lookUp h _).bind fun u u' hu => ?_
    cases hu with
    | object identity hd =>
      have hmethod := hc.method? method.lexeme
      dsimp only
      generalize c.method? method.lexeme = found, c'.method? method.lexeme = found' at hmethod
      cases hmethod with
      | none => exact failAt method _
      | some hm => exact (bindThis hm (.object identity hd)).bind fun _ _ hbound => functionValue hbound
    | _ => exact failAt ref.name _
  | _ => exact failAt ref.name _

/-- Each parameter gets a cell, in order, with the value that is given for it or without one. -/
theorem enterParams (params : List Token) (h : Level scopes scopes') {given : List (Value Sight)}
    {given' : List (Value Scopes)} (hgiven : List.Forall₂ Like given given') :
    Runs short Level (enterParams params given scopes) (Lexical.enterParams params given' scopes') := by
  induction params generalizing scopes scopes' given given' with
  | nil => exact .pure h
  | cons param params ih =>
    cases hgiven with
    | nil => exact (announce h param.lexeme .none).bind fun _ _ h => ih h .nil
    | cons hv hrest => exact (announce h param.lexeme (.some (.some hv))).bind fun _ _ h => ih h hrest

/-- The value of the name has to be a class. -/
theorem superclassOf (h : visible scopes = visible scopes') (ref : Ref) :
    Runs short (Class.Related Lowered) (superclassOf scopes ref) (Lexical.superclassOf scopes' ref) := by
  refine (lookUp h ref.name).bind fun v v' hv => ?_
  cases hv with
  | classOf hc => exact .pure hc
  | _ => exact failAt ref.name _

/-- The methods of a class are put into its table from the first to the last, each lowered. -/
theorem methodTable (methods : List Function) (h : visible scopes = visible scopes') :
    Table.Related Lowered (methodTable methods scopes)
      (Machine.methodTable (lowerMethods methods) scopes') := by
  unfold Counting.methodTable Machine.methodTable
  -- Whatever has been put in before stays related.
  have hinsert : ∀ (table : Table (Closure Sight)) (table' : Table (Closure Scopes)),
      Table.Related Lowered table table' → Table.Related Lowered
        (methods.foldl (fun table f =>
          table.insert f.header.displayName (Counting.close f scopes f.header.isInitializer)) table)
        ((lowerMethods methods).foldl (fun table d =>
          table.insert d.displayName ⟨d, scopes', d.isInitializer⟩) table') := by
    induction methods with
    | nil => exact fun _ _ htable => htable
    | cons f fs ih =>
      intro table table' htable
      refine ih _ _ ?_
      dsimp only
      rw [FunctionDecl.isInitializer, FunctionDecl.isInitializer, Function.displayName_lower]
      exact htable.insert _ (.close f h _)
  exact hinsert _ _ .empty

/-- Where there is a superclass the methods see it in a scope of its own. -/
theorem aroundMethods (h : visible scopes = visible scopes') {parent : Option (Class Sight)}
    {parent' : Option (Class Scopes)} (hparent : Option.Rel (Class.Related Lowered) parent parent') :
    Runs short (fun around around' => visible around = visible around') (aroundMethods scopes parent)
      (Lexical.aroundMethods scopes' parent') := by
  cases hparent with
  | none => exact .pure h
  | some hc =>
    refine (newCell (.some (.some (.classOf hc)))).bind ?_
    rintro cell _ rfl
    exact .pure (visible_cons h _)

/-- The whole of a class declaration: the superclass is looked up before the name is announced, and the class
    is assigned once its methods are known. -/
theorem declareClass (h : Level scopes scopes') (name : Token) (superclass : Option Ref)
    (methods : List Function) :
    Runs short Level (declareClass scopes name superclass methods)
      (Lexical.declareClass scopes' name superclass (lowerMethods methods)) := by
  have hparent : Runs short (Option.Rel (Class.Related Lowered))
      (superclass.elim (Pure.pure none) fun ref => some <$> Counting.superclassOf scopes ref)
      (superclass.elim (Pure.pure none) fun ref => some <$> Lexical.superclassOf scopes' ref) := by
    cases superclass with
    | none => exact .pure .none
    | some ref => exact (superclassOf h.visible ref).map fun _ _ hc => .some hc
  refine hparent.bind fun parent parent' hparents => ?_
  refine (announce h name.lexeme .none).bind fun scopes scopes' h => ?_
  refine (settle h name .none).bind fun _ _ _ => ?_
  refine (aroundMethods h.visible hparents).bind fun around around' haround => ?_
  refine newIdentity.bind ?_
  rintro identity _ rfl
  -- The chain of the class is its own part, with its methods around the same scopes, before that of the
  -- superclass.
  have hclass : Class.Related Lowered
      ⟨⟨identity, name.lexeme, Counting.methodTable methods around⟩, parent.elim [] Class.chain⟩
      ⟨⟨identity, name.lexeme, Machine.methodTable (lowerMethods methods) around'⟩,
        parent'.elim [] Class.chain⟩ := by
    refine .cons ⟨rfl, rfl, methodTable methods haround⟩ ?_
    cases hparents with
    | none => exact .nil
    | some hc => exact hc
  exact (assign h.visible name (.classOf hclass)).bind fun _ _ _ => .pure h

/-- A native function answers alike and leaves the host alike, for it sees nothing of closures but their
    names. -/
theorem callNative (token : Token) (native : Native) {given : List (Value Sight)}
    {given' : List (Value Scopes)} (h : List.Forall₂ Like given given') :
    Runs short Like (callNative token native given) (Lexical.callNative token native given') := by
  rintro s r ⟨hcells, hglobals, hobjects, hidentity, hhost⟩
  obtain ⟨hresult, hbehind⟩ := nativeAnswer_related Lowered.displayName_eq h s.host native
  unfold Counting.callNative Lexical.callNative
  rw [hhost]
  generalize Machine.nativeAnswer given s.host native = answer,
    Machine.nativeAnswer given' s.host native = answer' at hresult hbehind
  obtain ⟨result, host⟩ := answer
  obtain ⟨result', host'⟩ := answer'
  cases hbehind
  cases hresult with
  | ok hv => exact .done hv ⟨hcells, hglobals, hobjects, hidentity, rfl⟩
  | error => exact .failed ⟨hcells, hglobals, hobjects, hidentity, rfl⟩

end Runs

/-- The statements were completed in the same way. -/
inductive CompletionLike : Completion Sight → Completion Scopes → Prop where
  | normal : CompletionLike .normal .normal
  | broke : CompletionLike .broke .broke
  | returned {v v'} : Like v v' → CompletionLike (.returned v) (.returned v')

namespace Runs

/-- An initializer answers with its `this`, whatever it returned; any other function with the value that it
    returned, or with none. -/
theorem answer {c : Closure Sight} {c' : Closure Scopes} (h : Lowered c c') {completion completion'}
    (hc : CompletionLike completion completion') :
    Runs short Like (answer c completion) (Lexical.answer c' completion') := by
  have hkeyword : c'.declaration.keyword = c.declaration.keyword := by
    rw [h.text, h.header]
    cases c.env.text
    rfl
  unfold Counting.answer Lexical.answer
  rw [h.isInitializer, hkeyword]
  split
  · exact lookUp h.scopes _
  · cases hc with
    | returned hv => exact .pure hv
    | _ => exact .pure .nil

/-- An expression that may be left out is evaluated if it is there. -/
theorem optional {value : Expr → Run (Value Sight)} {value' : Lox.Expr → Lexical.Run (Value Scopes)}
    (h : ∀ e, Runs short Like (value e) (value' e.lower)) (e : Option Expr) :
    Runs short (Option.Rel Like) (optional value e) (Lexical.optional value' (lowerOptional e)) := by
  cases e with
  | none => exact .pure .none
  | some e => exact (h e).map fun _ _ hv => .some hv

end Runs

end Lox.Counting
