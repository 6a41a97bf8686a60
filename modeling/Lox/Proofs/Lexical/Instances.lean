import Lox.Proofs.Lexical.Declarations

/-!
  Functions, classes and instances, followed.

  A frame with `this` or with `super` has that one name, which holds an instance or a class
  (`own_follows`).  So a method that is bound to an instance sees the instance, and a method that
  `super` names is looked up in a class.

  What is made on the machine has a number, and what is made in the reference has the same: identities and
  instances are counted alike.  So two functions that are alike are the same function, and to compare them
  comes to the same.  Properties are fields first; whether a name is one of a field is the same on both sides,
  and then so is which method it is.

  For `super` the walk has recorded a distance, and the reference has the name in its scopes.  That both lead
  to the superclass, and one frame further in to the instance, is read off the layers around the place
  (`super_found`); the checks that the machine makes on the way never fail.

  A class is declared in the order: name, frame around the methods, class, name again
  (`declareClass_follows`).  In between nothing is run, so the name is pending for these steps only.
-/

namespace Lox

/-- One frame more in front. -/
theorem Env.Has.extend {env : Env} {fs : List Nat} (h : env.Has fs) (f : Nat) :
    (env.extend f).Has (f :: fs) :=
  congrArg (f :: ·) h

namespace Lexical

open Scope

section Steps

variable {L : Lore} {E : Nat → String → Prop} {W : World} {m : Machine} {t : State}

/-! ## Functions -/

/-- A function comes to be, with the same number. -/
theorem functionValue_follows (hi : InStep L E W m t) {c : Closure} {r : Closure Scopes}
    (hb : Bound L.visited W c r) :
    Follows L E W Fixed Never (Alike L.visited) (Machine.functionValue c) m (functionValue r) t := by
  have ha : Alike L.visited W (.function m.store.nextIdentity c) (.function t.nextIdentity r) :=
    hi.agree.identity ▸ .function _ hb
  exact .done ⟨W, .refl W, ⟨hi.agree.nextIdentity, hi.host, hi.resolution⟩, rfl, ha⟩

/-- The next number is the same. -/
theorem newIdentity_follows (hi : InStep L E W m t) :
    Follows L E W Fixed Never (fun _ id id' => id = id') (Machine.make Store.newIdentity) m
      newIdentity t :=
  .done ⟨W, .refl W, ⟨hi.agree.nextIdentity, hi.host, hi.resolution⟩, rfl, hi.agree.identity⟩

/-- A frame that is made with the one name of its layer. -/
theorem own_follows (hi : InStep L E W m t) {ℓ : Layer} {x : String} {v : Value}
    {r : Value Scopes} (hm : Made L.lived L.visited m.store.frames.size ℓ)
    (hx : ℓ.scope.contains x = true) (hh : Holds ℓ.kind (some (some v)))
    (ha : Alike L.visited W v r) :
    ∃ W', Later Fixed W W' ∧
      InStep L E W'
        { m with store :=
          { m.store with frames := m.store.frames.push (Table.empty.insert x (some v)) } }
        { t with cells := t.cells.push (.holds r) } ∧
      ∀ {fs ls a as ts}, (∀ y, Table.contains a y = decide (y = x)) → Linked W fs ls as ts →
        Linked W' (m.store.frames.size :: fs) (ℓ :: ls) (a :: as)
          (Table.empty.insert x t.cells.size :: ts) := by
  -- The frame is made first and gets its name then; as it is new, this changes nothing outside of it.
  have hadd : Later Fixed W (W.add m.store.frames.size ℓ) := World.later_add hi.agree.unframed ℓ
  have hframe := hi.agree.frame hm
  have hnone : (W.add m.store.frames.size ℓ).cell m.store.frames.size x = none :=
    hi.agree.new_frame x
  have hlayer := World.add_here W m.store.frames.size ℓ
  have hclaim := World.later_claim hnone (hframe.unfilled hlayer hnone) t.cells.size true
  have hlater := hadd.close hi.agree.unframed hclaim
  have hagree := hframe.name (.holds r) hlayer hx hnone (.push m.store x (some v))
    (.some (.some (ha.mono (fun _ hp => hp) hadd))) hh nofun
  refine ⟨_, hlater, ⟨hagree, hi.host, hi.resolution⟩, fun hcontains hl => ?_⟩
  refine .cons (hclaim.layer _ _ hlayer) (fun y => ?_) (fun y c hc => ?_) (hl.later hlater)
  · rw [Table.contains_single, hcontains]
  · rw [Table.get?_insert] at hc
    by_cases hy : x = y
    · subst hy
      rw [if_pos rfl] at hc
      cases hc
      exact World.claim_here _ _ _ _ _
    · rw [if_neg hy] at hc
      cases hc

/-! ## Methods -/

/-- A method that is bound to an instance sees it. -/
theorem bindThis_follows (hL : L.Closed) (hi : InStep L E W m t) {n : Nat} {c : Closure}
    {r : Closure Scopes} (hu : Unbound L.visited W c r) {id : Nat} {k : Class} {k' : Class Scopes}
    (hk : ClassAlike L.visited W k k') (hlived : L.lived ⟨n, .bind c (.object id k), m⟩) :
    Follows L E W Fixed Never (Bound L.visited) (Machine.bindThis c (.object id k)) m
      (bindThis r (.object id k')) t := by
  obtain ⟨twins, hvisited, hthis, hscopes, hchain, hlinked⟩ := hu
  rename_i ctx w kind ℓ ls a as fs
  obtain ⟨is, hsits⟩ := hL.settled hvisited
  have hcover : Covers w.scopes (ℓ :: ls) := hsits.before
  rw [hscopes] at hcover
  cases hcover with
  | cons hfits _ =>
    have hown : ℓ.kind.own? = some "this" := by rw [hthis]; rfl
    obtain ⟨W', hlater, hi', hlink⟩ := own_follows hi (.this hlived hvisited hthis)
      (hfits.names _ (hfits.own _ hown)) (by rw [hthis]; exact ⟨id, k, rfl⟩)
      (Alike.object id hk)
    have hlinked' := hlink (fun y => hfits.contains_of_own hown) hlinked
    rw [← hscopes] at hlinked'
    exact .done ⟨W', hlater, hi', rfl, ⟨twins.declaration, twins.isInitializer⟩, hvisited,
      hchain.extend _, hlinked', fun _ => ⟨ℓ, ls, rfl, hthis⟩⟩

/-- A property is the same field, or the same method. -/
theorem getProperty_follows (hL : L.Closed) (hi : InStep L E W m t) {n : Nat} {v : Value}
    {r : Value Scopes} (ha : Alike L.visited W v r) {name : Token}
    (hlived : ∀ id c found, v = .object id c → m.store.field? id name.lexeme = none →
      c.method? name.lexeme = some found → name.lexeme ≠ "init" →
      L.lived ⟨n, .bind found (.object id c), m⟩) :
    Follows L E W Fixed Never (Alike L.visited) (Machine.getProperty v name) m (getProperty r name)
      t := by
  cases ha with
  | @object id c d hc =>
    rw [Machine.getProperty, getProperty]
    -- A field comes before a method, on both sides.
    have hfield := hi.agree.fields id name.lexeme
    refine .first rfl rfl (.second rfl ?_)
    dsimp only
    generalize hf : m.store.field? id name.lexeme = field at hfield ⊢
    generalize t.objects[id]?.bind (·.get? name.lexeme) = field' at hfield
    cases hfield with
    | some hv => exact .pure hi hv
    | none =>
      have hmethod := hc.method? name.lexeme
      generalize hm : c.method? name.lexeme = method at hmethod
      generalize d.method? name.lexeme = method' at hmethod
      cases hmethod with
      | none => exact .fail hi (by decide)
      | some hu =>
        dsimp only
        split
        · exact .fail hi (by decide)
        · rename_i hinit
          refine .bind (bindThis_follows hL hi hu hc (hlived id c _ rfl hf hm hinit)) ?_
          exact fun _ _ _ _ _ _ _ hi' _ hb => functionValue_follows hi' hb
  | _ => exact .fail hi (by decide)

/-- A field of the same instance gets a value that is alike. -/
theorem setField_follows (hi : InStep L E W m t) (id : Nat) (name : Token) {v : Value}
    {r : Value Scopes} (ha : Alike L.visited W v r) :
    Follows L E W Fixed Never (fun _ _ _ => True) (Machine.setField id name v) m
      (setField id name r) t :=
  .done ⟨W, .refl W, ⟨hi.agree.putField id name.lexeme ha, hi.host, hi.resolution⟩, rfl, trivial⟩

/-- The new instance has the same number. -/
theorem newObject_follows (hi : InStep L E W m t) :
    Follows L E W Fixed Never (fun _ id id' => id = id') (Machine.make Store.newObject) m newObject
      t :=
  .done ⟨W, .refl W, ⟨hi.agree.object, hi.host, hi.resolution⟩, rfl, hi.agree.objects⟩

/-- A native function gives the same and does the same. -/
theorem callNative_follows (hi : InStep L E W m t) (paren : Token) (native : Native)
    {given : List Value} {given' : List (Value Scopes)}
    (hg : List.Forall₂ (Alike L.visited W) given given') :
    Follows L E W Fixed Never (Alike L.visited) (Machine.callNative paren native given) m
      (callNative paren native given') t := by
  obtain ⟨store, env, found, host⟩ := m
  -- Both ask the same host, and leave it alike.
  obtain ⟨hanswer, hhost⟩ := nativeAnswer_alike hg host native
  have hseen : host = t.host := hi.host
  unfold Follows callNative Machine.callNative
  rw [← hseen]
  dsimp only
  generalize Machine.nativeAnswer given host native = answer at hanswer hhost
  generalize Machine.nativeAnswer given' host native = answer' at hanswer hhost
  obtain ⟨result, host⟩ := answer
  obtain ⟨result', host'⟩ := answer'
  cases hhost
  cases hanswer with
  | ok ha => exact .done ⟨W, .refl W, ⟨hi.agree.withHost host, rfl, hi.resolution⟩, rfl, ha⟩
  | error hf =>
    have hi' : InStep L E W ⟨store, env, found, host⟩ { t with host := host } :=
      ⟨hi.agree.withHost host, rfl, hi.resolution⟩
    exact .failed ⟨⟨W, .refl W, hi'.excuse fun _ _ => .inl⟩, .inl hf⟩

/-- What a call of an initializer gives back is the instance that it sees. -/
theorem answer_follows (hL : L.Closed) (hi : InStep L E W m t) {c : Closure} {r : Closure Scopes}
    (hb : Bound L.visited W c r) {k : Completion} {k' : Completion Scopes}
    (hk : CompletionAlike L.visited W k k') :
    Follows L E W Fixed Never (Alike L.visited) (Eval.answer c k) m (answer r k') t := by
  obtain ⟨twins, hvisited, hchain, hlinked, hthis⟩ := hb
  rename_i ctx w kind ls fs
  unfold Eval.answer answer
  rw [twins.isInitializer, twins.declaration]
  cases hinit : c.isInitializer with
  | true =>
    -- An initializer stands in the scope with `this`, which is the innermost one around it.
    obtain ⟨ℓ, rest, rfl, hkind⟩ := hthis hinit
    obtain ⟨is, hsits⟩ := hL.settled hvisited
    have hcover : Covers w.scopes (ℓ :: rest) := hsits.before
    have hhead : ∀ a ∈ w.scopes.head?, Table.contains a "this" = true := by
      intro a ha
      cases hs : w.scopes with
      | nil =>
        rw [hs] at ha
        cases ha
      | cons b bs =>
        rw [hs] at ha hcover
        cases ha
        cases hcover with
        | cons hfits _ => exact hfits.own _ (by rw [hkind]; rfl)
    have htarget : Target c.env w.scopes (Token.named "this" c.declaration.keyword.line).lexeme
        c.env.frame := (hlinked.current hchain hhead).1
    exact get_follows hi hlinked hchain htarget
  | false =>
    cases hk with
    | returned ha => exact .pure hi ha
    | normal | broke => exact .pure hi .nil

/-! ## Superclasses

  `super` and `this` are found at their distances, since the resolver has let them pass only inside methods. -/

section Super

variable {n : Nat} {ctx : Context} {w : Walk} {fs : List Nat} {ls : List Layer} {ts : Scopes}
  {ref : Ref} {method : Token}

/-- A variable that holds an instance or a class. -/
theorem InStep.lookUp_done (hi : InStep L E W m t) {f c : Nat} {name : Token} {v : Value}
    (hfind : find? ts name.lexeme = some c) (hcell : W.cell f name.lexeme = some c)
    (hslot : m.store.slot? f name.lexeme = some (some v)) :
    ∃ r, lookUp ts name t = .done r t ∧ Alike L.visited W v r := by
  obtain ⟨cell, hget, halike, -⟩ := hi.agree.named f name.lexeme c hcell
  have hrun : t.slot? ts name.lexeme = cell.slot := by simp [State.slot?, hfind, hget]
  rw [hslot] at halike
  generalize hcs : cell.slot = slot at halike
  cases halike with
  | some h =>
    cases h with
    | some ha =>
      refine ⟨_, ?_, ha⟩
      rw [lookUp, hrun, hcs]

/-- Where `super` stands, it is found to be a class, and `this` to be an instance. -/
theorem super_found (hL : L.Closed) (hi : InStep L E W m t)
    (hv : L.visited ⟨⟨ctx, w, .expr (.super ref method)⟩, ls⟩) (hl : Linked W fs ls w.scopes ts)
    (hc : m.env.Has fs) :
    ∃ d c c' id k k', m.resolution[ref.id]? = some (d + 1) ∧
      Store.getAt m.env (d + 1) ref.name.lexeme m.store = .done (.classOf c) m.store ∧
      Store.getAt m.env d "this" m.store = .done (.object id k) m.store ∧
      lookUp ts ref.name t = .done (.classOf c') t ∧ ClassAlike L.visited W c c' ∧
      lookUp ts (Token.named "this" ref.name.line) t = .done (.object id k') t ∧
      ClassAlike L.visited W k k' := by
  have hsettled := hL.settled hv
  obtain ⟨hrecorded, hname, howner⟩ := hsettled.super
  obtain ⟨is, hsits⟩ := hsettled
  -- The layers in which the two names are found, and from them the frames and the cells.
  obtain ⟨d, ℓ, ℓ', hthis, hsuper, hℓ, hkind, hℓ', hkind'⟩ :=
    Covers.distance_super hsits.before (howner ▸ hsits.stack)
  obtain ⟨f, _, a, hf, hfℓ, hlayer, hfind, hcell⟩ := hl.find_some hthis
  obtain ⟨g, _, b, hg, hgℓ, hlayer', hfind', hcell'⟩ := hl.find_some hsuper
  cases hℓ.symm.trans hfℓ
  cases hℓ'.symm.trans hgℓ
  have hholds := hi.agree.holds f ℓ "this" a hlayer hcell
  rw [hkind] at hholds
  obtain ⟨id, k, hslot⟩ := hholds
  have hholds' := hi.agree.holds g ℓ' "super" b hlayer' hcell'
  rw [hkind'] at hholds'
  obtain ⟨c, hslot'⟩ := hholds'
  have hname' : (Token.named "this" ref.name.line).lexeme = "this" := rfl
  rw [← hname'] at hfind hcell hslot
  obtain ⟨r, hrun, ha⟩ := hi.lookUp_done hfind hcell hslot
  rw [← hname] at hslot' hfind' hcell'
  obtain ⟨r', hrun', ha'⟩ := hi.lookUp_done hfind' hcell' hslot'
  cases ha with
  | @object _ _ k' hk =>
    cases ha' with
    | @classOf _ c' hc' =>
      refine ⟨d, c, c', id, k, k', ?_, ?_, ?_, hrun', hc', hrun, hk⟩
      · rw [hi.resolution, hrecorded, hname]
        exact hsuper
      · rw [getAt_eq_get (hc.ancestor? hg), get_of_slot hslot']
      · rw [getAt_eq_get (hc.ancestor? hf)]
        exact get_of_slot hslot

/-- How a method is looked up with `super`, once the class and the instance are found. -/
theorem superMethod_eq {d id : Nat} {c k : Class} (hr : m.resolution[ref.id]? = some (d + 1))
    (hclass : Store.getAt m.env (d + 1) ref.name.lexeme m.store = .done (.classOf c) m.store)
    (hthis : Store.getAt m.env d "this" m.store = .done (.object id k) m.store) :
    Machine.superMethod ref method m =
      (match c.method? method.lexeme with
      | some found => do
        let bound ← Machine.bindThis found (.object id k)
        Machine.functionValue bound
      | none => Machine.failAt method .undefinedProperty : Eval Value) m := by
  have hdistance : Machine.distance? ref m = .done (some (d + 1)) m := congrArg (Ending.done · m) hr
  have hclass' : Machine.atToken ref.name (Store.getAt m.env (d + 1) ref.name.lexeme) m =
      .done (.classOf c) m := atToken_done hclass
  have hthis' : Machine.atToken (Token.named "this" ref.name.line) (Store.getAt m.env d "this") m =
      .done (.object id k) m := atToken_done hthis
  have henv : (Action.read Machine.env : Eval Env) m = .done m.env m := rfl
  unfold Machine.superMethod
  rw [Action.bind_of_done henv, Action.bind_of_done hdistance]
  dsimp only
  rw [Action.bind_of_done hclass']
  dsimp only
  rw [Nat.add_sub_cancel]
  exact (Action.bind_of_done hthis').trans rfl

/-- A method that `super` names is bound to the same instance, or is missing on both sides. -/
theorem superMethod_follows (hL : L.Closed) (hi : InStep L E W m t)
    (hv : L.visited ⟨⟨ctx, w, .expr (.super ref method)⟩, ls⟩) (hl : Linked W fs ls w.scopes ts)
    (hc : m.env.Has fs)
    (hlived : ∀ d c id k found s s', m.resolution[ref.id]? = some d →
      Store.getAt m.env d ref.name.lexeme m.store = .done (.classOf c) s →
      Store.getAt m.env (d - 1) "this" m.store = .done (.object id k) s' →
      c.method? method.lexeme = some found → L.lived ⟨n, .bind found (.object id k), m⟩) :
    Follows L E W Fixed Never (Alike L.visited) (Machine.superMethod ref method) m
      (superMethod ts ref method) t := by
  -- `super` and `this` are both there, since only methods of a subclass get past the resolver.
  obtain ⟨d, c, c', id, k, k', hr, hclass, hthis, hrun, hcc, hrun', hkk⟩ :=
    super_found hL hi hv hl hc
  have hmethod := hcc.method? method.lexeme
  unfold Follows superMethod
  rw [superMethod_eq hr hclass hthis, Action.bind_of_done hrun]
  dsimp only
  rw [Action.bind_of_done hrun']
  dsimp only
  generalize hm : c.method? method.lexeme = found at hmethod
  generalize c'.method? method.lexeme = found' at hmethod
  cases hmethod with
  | none => exact Follows.fail hi (by decide)
  | some hu =>
    have hbind := hlived (d + 1) c id k _ m.store m.store hr hclass hthis hm
    exact Follows.bind (bindThis_follows hL hi hu hkk hbind) fun _ _ _ _ _ _ _ hi' _ hb =>
      functionValue_follows hi' hb

/-- A method that `super` names may be missing, and nothing else goes wrong. -/
theorem superMethod_fault (hL : L.Closed) (hi : InStep L E W m t)
    (hv : L.visited ⟨⟨ctx, w, .expr (.super ref method)⟩, ls⟩) (hl : Linked W fs ls w.scopes ts)
    (hc : m.env.Has fs) {e : RuntimeError} {m' : Machine}
    (he : Machine.superMethod ref method m = .failed e m') : e.fault = .undefinedProperty := by
  obtain ⟨d, c, c', id, k, k', hr, hclass, hthis, -⟩ := super_found hL hi hv hl hc
  rw [superMethod_eq hr hclass hthis] at he
  cases hm : c.method? method.lexeme with
  | none =>
    rw [hm] at he
    cases he
    rfl
  | some found =>
    rw [hm] at he
    cases he

end Super

/-! ## Classes

  The name of a class is declared before its methods are made, on both sides, and has its value afterwards. -/

section Classes

variable {ctx : Context} {w : Walk} {fs : List Nat} {ls : List Layer} {ts : Scopes} {name : Token}

/-- The methods of a class see the same. -/
theorem methodTable_alike (hL : L.Closed) {ℓ : Layer} (hℓ : ℓ.kind = .this) {a : Scope}
    {as : List Scope} {env : Env} (hc : env.Has fs) (hl : Linked W fs ls as ts)
    (ds : List FunctionDecl) :
    ∀ {w : Walk} {table : Table Closure} {table' : Table (Closure Scopes)},
      w.scopes = a :: as → L.visited ⟨⟨ctx, w, .methods ds⟩, ℓ :: ls⟩ →
      (∀ x, Option.Rel (Unbound L.visited W) (table.get? x) (table'.get? x)) →
      ∀ x, Option.Rel (Unbound L.visited W)
        ((ds.foldl (fun table d => table.insert d.displayName ⟨d, env, d.isInitializer⟩) table).get? x)
        ((ds.foldl (fun table d => table.insert d.displayName ⟨d, ts, d.isInitializer⟩) table').get? x) := by
  induction ds with
  | nil => exact fun _ _ h => h
  | cons d ds ih =>
    intro w table table' hs hv htable
    have hfirst := hL.part hv .firstMethod
    have hothers := hL.part hv .otherMethods
    obtain ⟨is, hsits⟩ := hL.settled hfirst
    -- Each method is walked over from the same scopes.
    have hscopes : (walkFunction ctx (methodKind d) d w).scopes = w.scopes :=
      (growth_of_formed hsits.formed ctx w).2 trivial
    refine ih (hscopes.trans hs) hothers fun x => ?_
    rw [Table.get?_insert, Table.get?_insert]
    split
    · exact .some ⟨⟨rfl, rfl⟩, hfirst, hℓ, hs, hc, hl⟩
    · exact htable x

/-- The class that a class extends is the same, or there is the same error. -/
theorem superclassOf_follows (hi : InStep L E W m t) (hl : Linked W fs ls w.scopes ts)
    (hc : m.env.Has fs) {ref : Ref} (hr : Recorded L.resolution w ref) :
    Follows L E W Fixed Never (ClassAlike L.visited) (Machine.superclassOf ref) m
      (superclassOf ts ref) t := by
  refine .bind (lookUp_follows hi hl hc hr) fun v m' r t' W' _ _ hi' _ ha => ?_
  cases ha with
  | classOf hcc => exact .pure hi' hcc
  | _ => exact .fail hi' (by decide)

/-- What the methods of a class see, but for the instance. -/
theorem aroundMethods_follows (hi : InStep L E W m t) {as : List Scope}
    (hl : Linked W fs ls as ts) {env : Env} (hc : env.Has fs) {parent : Option Class}
    {parent' : Option (Class Scopes)} (hp : Option.Rel (ClassAlike L.visited W) parent parent')
    {opener : Visit} (hm : parent.isSome = true →
      Made L.lived L.visited m.store.frames.size (superLayer opener)) :
    Follows L E W Fixed Never
      (fun W' env' ts' => ∃ fs', env'.Has fs' ∧
        Linked W' fs' ((classLayers opener parent.isSome).tail ++ ls)
          ((Walk.classScopes parent.isSome).tail ++ as) ts')
      (Machine.aroundMethods env parent) m (aroundMethods ts parent') t := by
  cases hp with
  | none => exact .pure hi ⟨fs, hc, hl⟩
  | some hcc =>
    have hsuper : (superLayer opener).scope.contains "super" = true := rfl
    obtain ⟨W', hlater, hi', hlink⟩ := own_follows hi (hm rfl) hsuper ⟨_, rfl⟩ (.classOf hcc)
    exact .done ⟨W', hlater, hi', rfl, _, hc.extend _,
      hlink (fun y => Table.contains_single "super" y _) hl⟩

/-- To look a superclass up changes nothing. -/
theorem superclassOf_state {ref : Ref} {m m' : Machine} {c : Class}
    (h : Machine.superclassOf ref m = .done c m') : m' = m := by
  obtain ⟨v, m₁, hrun, hrest⟩ := Action.bind_eq_done_iff.mp h
  have hstate := lookUp_state hrun
  subst hstate
  cases v with
  | classOf c =>
    cases hrest
    rfl
  | _ => cases hrest

/-- The class that a class extends, if it does. -/
theorem parent_follows (hL : L.Closed) (hi : InStep L E W m t) {superclass : Option Ref}
    {ds : List FunctionDecl} (hv : L.visited ⟨⟨ctx, w, .stmt (.classDecl name superclass ds)⟩, ls⟩)
    (hl : Linked W fs ls w.scopes ts) (hc : m.env.Has fs) :
    Follows L E W Fixed Never
      (fun W' a b => Option.Rel (ClassAlike L.visited W') a b ∧ a.isSome = superclass.isSome)
      (superclass.elim (pure none) fun ref => some <$> Machine.superclassOf ref) m
      (superclass.elim (pure none) fun ref => some <$> superclassOf ts ref) t := by
  cases superclass with
  | none => exact .pure hi ⟨.none, rfl⟩
  | some ref =>
    obtain ⟨hrecorded, -⟩ := (hL.settled hv).superclass
    exact (superclassOf_follows hi hl hc hrecorded).map fun _ _ _ hcc => ⟨.some hcc, rfl⟩

/-- Looking the superclass up changes nothing. -/
theorem parent_done {superclass : Option Ref} {m m' : Machine} {parent : Option Class}
    (h : (superclass.elim (pure none) fun ref => some <$> Machine.superclassOf ref : Eval _) m =
      .done parent m') :
    m' = m ∧ ∀ ref, superclass = some ref → ∃ c, Machine.superclassOf ref m = .done c m := by
  cases superclass with
  | none =>
    cases h
    exact ⟨rfl, nofun⟩
  | some ref =>
    have h' : ((some <$> Machine.superclassOf ref : Eval _)) m = .done parent m' := h
    rw [map_eq_pure_bind] at h'
    obtain ⟨c, m₁, hrun, hrest⟩ := Action.bind_eq_done_iff.mp h'
    cases hrest
    cases superclassOf_state hrun
    refine ⟨rfl, ?_⟩
    rintro _ ⟨⟩
    exact ⟨c, hrun⟩

/-- A class is declared: its name first, without a value, then what its methods see, then itself. -/
theorem declareClass_follows (hL : L.Closed) (hi : InStep L E W m t) {superclass : Option Ref}
    {ds : List FunctionDecl} {n : Nat}
    (hv : L.visited ⟨⟨ctx, w, .stmt (.classDecl name superclass ds)⟩, ls⟩)
    (hl : Linked W fs ls w.scopes ts) (he : Exact W fs ts) (hc : m.env.Has fs)
    (hlived : L.lived ⟨n + 1, .execute (.classDecl name superclass ds), m⟩) :
    Follows L E W (Current fs) (fs = [])
      (fun W' _ ts' => Linked W' fs ls (walkStmt ctx (.classDecl name superclass ds) w).scopes ts' ∧
        Exact W' fs ts')
      (Machine.declareClass name superclass ds) m (declareClass ts name superclass ds) t := by
  have hsettled := hL.settled hv
  obtain ⟨hplain, hnew, hheader, hafter⟩ := hsettled.classDecl
  obtain ⟨is, hsits⟩ := hsettled
  have hclaims := Claims.bind hnew
  have hcover : Covers (w.bind name).scopes ls := hafter ▸ hsits.behind
  have hmembers := hL.part hv .members
  rw [hafter]
  -- The superclass is looked up before the name is announced.
  refine .after (parent_follows hL hi hv hl hc) ?_
  intro parent m₁ parent' t₁ W₁ hrun hw₁ hi₁ henv₁ hparent
  obtain ⟨hparent, hextends⟩ := hparent
  obtain ⟨rfl, hsuperclass⟩ := parent_done hrun
  obtain ⟨W₂, ts', t₂, hannounce, hw₂, hi₂, hl₂, he₂, hunfilled⟩ :=
    announce_follows hi₁ (hl.later hw₁) (he.later hl hw₁ fun _ _ => id) hnew hclaims
      (admits_of_claims hclaims hcover ⟨hplain.not_this, hplain.not_super⟩)
  refine .second hannounce (.later hw₂ ?_)
  refine .bind (settle_follows hi₂ hi₁.agree.excused hl₂ he₂ hc hcover hplain
    (head_of_claims hclaims) hunfilled .none) ?_
  intro _ m₃ _ t₃ W₃ hdefine hw₃ hi₃ henv₃ he₃
  have hl₃ := hl₂.later hw₃
  refine .first rfl rfl ?_
  -- If there is a superclass, the frame around the methods is made for it, at this moment.
  have hmade : parent.isSome = true → Made L.lived L.visited m₃.store.frames.size
      (superLayer ⟨ctx, w, .stmt (.classDecl name superclass ds)⟩) := by
    intro hsome
    rw [hextends] at hsome
    obtain ⟨ref, rfl⟩ := Option.isSome_iff_exists.mp hsome
    obtain ⟨c, hclass⟩ := hsuperclass ref rfl
    exact .super hlived hv hclass hdefine
  refine .after (aroundMethods_follows hi₃ hl₃ (henv₃ ▸ hc)
    (related_imp hparent (fun _ _ hcc => ClassAlike.mono hcc (fun _ hp => hp) (hw₂.trans hw₃))) hmade) ?_
  intro env m₄ ts'' t₄ W₄ _ hw₄ hi₄ henv₄ haround
  obtain ⟨fs', hc', hl'⟩ := haround
  rw [hextends] at hl'
  refine .after (newIdentity_follows hi₄) ?_
  rintro id m₅ _ t₅ W₅ _ hw₅ hi₅ henv₅ rfl
  -- The methods stand in the scopes of the class, of which the innermost is that of `this`.
  have hscopes : ((enterHeader name superclass w).enterClass superclass.isSome).scopes =
      Table.empty.insert "this" .defined ::
        ((Walk.classScopes superclass.isSome).tail ++ (w.bind name).scopes) := by
    rw [Walk.enterClass_scopes, hheader]
    rfl
  have hmethods : ∀ x, Option.Rel (Unbound L.visited W₅)
      ((Machine.methodTable ds env).get? x) ((Machine.methodTable ds ts'').get? x) :=
    methodTable_alike hL (by rfl) hc' (hl'.later hw₅) ds hscopes hmembers fun _ => .none
  have hw : Later (Current fs) W₁ W₅ :=
    ((hw₂.trans hw₃).trans (hw₄.loosen nofun)).trans (hw₅.loosen nofun)
  have hclass : ClassAlike L.visited W₅
      ⟨⟨id, name.lexeme, Machine.methodTable ds env⟩, parent.elim [] Class.chain⟩
      ⟨⟨id, name.lexeme, Machine.methodTable ds ts''⟩, parent'.elim [] Class.chain⟩ := by
    refine .cons ⟨rfl, rfl, hmethods⟩ ?_
    cases hparent with
    | none => exact .nil
    | some hcc => exact ClassAlike.mono hcc (fun _ hp => hp) hw
  have hc₃ : m₃.env.Has fs := henv₃ ▸ hc
  have hl₅ := (hl₃.later hw₄).later hw₅
  have he₅ := (he₃.later hl₃ hw₄ fun _ _ h => h).later (hl₃.later hw₄) hw₅ fun _ _ h => h
  have hassign := put_follows hi₅ hl₅ hc₃ hcover hplain
    (hl₃.current hc₃ (head_of_claims hclaims)).1 (.classOf hclass)
  exact (hassign.give fun W' _ _ hw' _ => ⟨hl₅.later hw', he₅.later hl₅ hw' fun _ _ h => h⟩).fixed

end Classes

end Steps

end Lexical

end Lox
