import Lox.Proofs.Lexical.Names
import Lox.Proofs.Runs.Dealings
import Lox.Proofs.Runs.Kept

/-!
  The names of frames.

  A statement declares names in the current frame, a call in a frame of its own.  So a frame that is not the
  current one gets no names while a statement runs, unless the statement makes it; and no frame gets any while
  an expression is evaluated, whatever functions it calls.

  * `Store.Steady f s s'` says that the frame `f`, which is there, has got no names between two stores.
  * `Steadies f current x` says that an action leaves the frame so wherever the current environment is as asked.
    For expressions nothing is asked; for statements that the frame is not the current one.  This is what the
    two tiers of laws are for (`Tiers`): what runs in a frame of its own by the loose law keeps the strict one,
    because a new frame is not `f`.

  As names are not taken away either (`Keeps`), the frames that were there before an expression have the same
  names behind it (`Store.SameNames`, `evaluate_sameNames`).
-/

namespace Lox

/-- The frame is in both stores, and has no other names in the second than in the first. -/
structure Store.Steady (f : Nat) (s s' : Store) : Prop where
  present : f < s'.frames.size
  names : ∀ x, (s'.slot? f x).isSome → (s.slot? f x).isSome

namespace Store.Steady

variable {f g : Nat} {x : String} {s s' : Store}

/-- What else there is in a store does not matter. -/
theorem of_frames (hf : f < s.frames.size) (h : s'.frames = s.frames) : Steady f s s' := by
  refine ⟨h ▸ hf, fun x hx => ?_⟩
  rwa [slot?, h] at hx

/-- A frame that is there is steady. -/
theorem refl (hf : f < s.frames.size) : Steady f s s := of_frames hf rfl

/-- Steady by steps is steady. -/
theorem trans {s'' : Store} (h : Steady f s s') (h' : Steady f s' s'') : Steady f s s'' :=
  ⟨h'.present, fun x hx => h.names x (h'.names x hx)⟩

/-- A name of another frame is put, or one that the frame has. -/
theorem put {slot : Option Value} (hf : f < s.frames.size) (hx : g = f → (s.slot? f x).isSome) :
    Steady f s (s.put g x slot) := by
  refine ⟨by simpa [Store.put] using hf, fun y hy => ?_⟩
  by_cases hg : g < s.frames.size
  · rw [slot?_put s hg] at hy
    split at hy
    · rename_i h
      obtain ⟨rfl, rfl⟩ := h
      exact hx rfl
    · exact hy
  · rwa [slot?_put_absent (Nat.le_of_not_lt hg)] at hy

/-- A new frame comes to the end. -/
theorem push (env : Env) (frame : Table (Option Value)) (hf : f < s.frames.size) :
    Steady f s (s.push env frame).2 := by
  refine ⟨by simp [Store.push]; omega, fun y hy => ?_⟩
  rwa [slot?_push, if_neg (by omega)] at hy

end Store.Steady

namespace Eval

open Machine

/-- However the action ends where such frames are current, the frame has got no names, and the same
    frames are current. -/
def Steadies (f : Nat) (current : Env → Prop) {α : Type} (x : Eval α) : Prop :=
  ∀ m m' : Machine, f < m.store.frames.size → current m.env → (x m).state? = some m' →
    m'.env = m.env ∧ m.store.Steady f m'.store

section Steps

variable {f : Nat} {current : Env → Prop} {α β : Type}

/-- One action and then another, in the same environment. -/
theorem Steadies.bind {x : Eval α} {g : α → Eval β} (hx : Steadies f current x)
    (hg : ∀ a, Steadies f current (g a)) : Steadies f current (x >>= g) := by
  intro m m' hf hcur h
  rcases Action.state?_bind h with ⟨e, hrun⟩ | ⟨a, t, hrun, hrest⟩
  · exact hx m m' hf hcur (by rw [hrun]; rfl)
  · obtain ⟨henv, hsteady⟩ := hx m t hf hcur (by rw [hrun]; rfl)
    obtain ⟨henv', hsteady'⟩ := hg a t m' hsteady.present (henv ▸ hcur) hrest
    exact ⟨henv'.trans henv, hsteady.trans hsteady'⟩

/-- Where the machine stays as it is. -/
theorem Steadies.unchanged {x : Eval α} (h : ∀ m m', (x m).state? = some m' → m' = m) :
    Steadies f current x := by
  intro m m' hf _ hrun
  rw [h m m' hrun]
  exact ⟨rfl, .refl hf⟩

/-- What the store makes. -/
theorem Steadies.make {step : Store → α × Store}
    (hstep : ∀ s : Store, f < s.frames.size → s.Steady f (step s).2) : Steadies f current (make step) := by
  intro m m' hf _ hrun
  cases hrun
  exact ⟨rfl, hstep m.store hf⟩

/-- A name is declared in another frame. -/
theorem Steadies.define (token : Token) {g : Nat} (hg : g ≠ f) (x : String) (slot : Option Value) :
    Steadies f current (atToken token (Store.define g x slot)) := by
  intro m m' hf _ hrun
  rw [Lexical.atToken_define] at hrun
  split at hrun
  · cases hrun
    exact ⟨rfl, .refl hf⟩
  · cases hrun
    exact ⟨rfl, .put hf fun h => absurd h hg⟩

/-- By induction on the parameters. -/
theorem Steadies.defineParams {g : Nat} (hg : g ≠ f) (params : List Token) (given : List Value) :
    Steadies f current (defineParams g params given) := by
  induction params generalizing given with
  | nil => cases given <;> exact .unchanged (by rintro m m' ⟨⟩; rfl)
  | cons param params ih =>
    cases given with
    | nil => exact .unchanged (by rintro m m' ⟨⟩; rfl)
    | cons value values => exact (Steadies.define param hg _ _).bind fun _ => ih values

end Steps

/-- Whatever frames are current: of the steps only a declaration gives a frame names. -/
theorem steadies_steps (f : Nat) (current : Env → Prop) : Steps (Steadies f current) where
  pure a := .unchanged (by rintro m m' ⟨⟩; rfl)
  bind := Steadies.bind
  outOfFuel := .unchanged (by rintro m m' ⟨⟩)
  read view := .unchanged (by rintro m m' ⟨⟩; rfl)
  failAt token fault := .unchanged (by rintro m m' ⟨⟩; rfl)
  get token g x := by
    refine .unchanged fun m m' h => ?_
    rw [Lexical.atToken_get] at h
    split at h <;> cases h <;> rfl
  assign token g x value := by
    intro m m' hf _ h
    rw [Lexical.atToken_assign] at h
    split at h
    · rename_i hsome
      cases h
      exact ⟨rfl, .put hf fun hg => hg ▸ hsome⟩
    · cases h
      exact ⟨rfl, .refl hf⟩
  push env frame := .make fun _ hf => .push env frame hf
  newObject := .make fun _ hf => .of_frames hf rfl
  newIdentity := .make fun _ hf => .of_frames hf rfl
  setField object x value := by
    intro m m' hf _ h
    cases h
    exact ⟨rfl, .of_frames hf rfl⟩
  callNative token native given := by
    rintro ⟨store, env, found, host⟩ m' hf _ h
    rw [callNative] at h
    split at h <;> cases h <;> exact ⟨rfl, .refl hf⟩

/-- What runs in a frame that is made for it gives names to no other. -/
theorem Steadies.inside {f : Nat} {current : Env → Prop} {α β : Type} (around : Env) {prepare : Env → Eval α}
    {body : Env → Eval β} (hprepare : ∀ env : Env, env.frame ≠ f → Steadies f current (prepare env))
    (hbody : ∀ env : Env, env.frame ≠ f → Steadies f (fun env => env.frame ≠ f) (body env)) :
    Steadies f current (Machine.make (Store.push around .empty) >>= fun env =>
      prepare env >>= fun _ => within env (body env)) := by
  intro m m' hf hcur h
  rcases Action.state?_bind h with ⟨e, hrun⟩ | ⟨env, t, hrun, hrest⟩
  · cases hrun
  · cases hrun
    -- The new frame comes behind all others.
    have hnew : (around.extend m.store.frames.size).frame ≠ f := by
      show m.store.frames.size ≠ f
      omega
    have hinner : Steadies f current (prepare (around.extend m.store.frames.size) >>= fun _ =>
        within (around.extend m.store.frames.size) (body (around.extend m.store.frames.size))) := by
      refine (hprepare _ hnew).bind fun _ => ?_
      intro t u ht _ hrun
      obtain ⟨v, hv, rfl⟩ := state?_within hrun
      obtain ⟨-, hsteady⟩ := hbody _ hnew { t with env := around.extend _ } v ht hnew hv
      exact ⟨rfl, hsteady⟩
    have hpush := Store.Steady.push around .empty hf
    obtain ⟨henv, hsteady⟩ := hinner { m with store := _ } m' hpush.present hcur hrest
    exact ⟨henv, hpush.trans hsteady⟩

/-- Expressions give no frame names, and statements only the current one. -/
theorem steadies_tiers (f : Nat) :
    Tiers (Steadies f fun _ => True) (Steadies f fun env => env.frame ≠ f) where
  strict := steadies_steps f _
  loose := steadies_steps f _
  loosen hx m m' hf _ := hx m m' hf trivial
  -- A statement may declare a name: in the current frame, which is another one.
  define name slot := by
    intro m m' hf hcur h
    have hdefine : Steadies f (fun env => env.frame ≠ f)
        (atToken name (Store.define m.env.frame name.lexeme slot)) :=
      .define name hcur _ _
    exact hdefine m m' hf hcur h
  -- A block has a frame of its own, which is new.
  block hx := by
    have h := steadies_steps f fun env => env.frame ≠ f
    exact h.bind (h.read _) fun env => .inside env (fun _ _ => h.pure ()) fun _ _ => hx
  call closure given _ _ x g hx hg := by
    have hall := (steadies_steps f fun _ => True).bind (.inside closure.env
      (fun env henv => .defineParams henv closure.declaration.params given) fun _ _ => hx) hg
    simpa only [bind_assoc] using hall

/-- The law in both tiers, of all runs. -/
theorem steadies (f fuel : Nat) :
    TieredRules (Steadies f fun _ => True) (Steadies f fun env => env.frame ≠ f) fuel :=
  (steadies_tiers f).rules fuel

end Eval

/-- The frames of the first store have the same names in the second, with a value if they had one. -/
structure Store.SameNames (s s' : Store) : Prop where
  names : ∀ f < s.frames.size, ∀ x, (s'.slot? f x).isSome = (s.slot? f x).isSome
  valued : ∀ f x v, s.slot? f x = some (some v) → ∃ v', s'.slot? f x = some (some v')

namespace Eval

open Machine

/-- What takes nothing away and gives no frame a name leaves all names as they are. -/
theorem sameNames {α : Type} {x : Eval α} (hkeeps : Keeps x) (hsteadies : ∀ f, Steadies f (fun _ => True) x)
    {m m' : Machine} (h : (x m).state? = some m') : m.store.SameNames m'.store := by
  -- No name is new, and none is taken away.
  have hkept := (hkeeps m m' h).store
  constructor
  · intro f hf y
    obtain ⟨-, hsteady⟩ := hsteadies f m m' hf trivial h
    rw [Bool.eq_iff_iff]
    refine ⟨hsteady.names y, fun hy => ?_⟩
    obtain ⟨slot, hslot⟩ := Option.isSome_iff_exists.mp hy
    obtain ⟨slot', hslot', -⟩ := hkept.slots f y slot hslot
    rw [hslot']
    rfl
  · intro f y v hv
    obtain ⟨slot', hslot', hsome⟩ := hkept.slots f y _ hv
    obtain ⟨v', rfl⟩ := Option.isSome_iff_exists.mp (hsome rfl)
    exact ⟨v', hslot'⟩

/-- **Evaluating an expression leaves the names of all frames as they are.** -/
theorem evaluate_sameNames {fuel : Nat} {e : Expr} {m m' : Machine} (h : (evaluate fuel e m).state? = some m') :
    m.store.SameNames m'.store :=
  sameNames ((keeps fuel).evaluate e) (fun f => (steadies f fuel).evaluate e) h

/-- A call declares names only in frames that are made for it. -/
theorem call_sameNames {fuel : Nat} {function : Value} {paren : Token} {given : List Value} {m m' : Machine}
    (h : (call fuel function paren given m).state? = some m') : m.store.SameNames m'.store :=
  sameNames ((keeps fuel).call function paren given) (fun f => (steadies f fuel).call function paren given) h

end Eval

/-! ## Sessions -/

open Eval

/-- A submission takes no name from any frame, however it ends. -/
theorem Turn.Ends.kept {t : Turn} {answer : Answered Verdict} (h : t.Ends answer) :
    t.session.machine.store.Kept answer.session.machine.store := by
  have hprogram := keeps_closed.program t.fuel t.parsed.program none t.machine
  cases h with
  | unread _ | unmatched _ _ => exact .refl _
  | done _ hdone => exact (hprogram _ (by rw [hdone]; rfl)).store
  | @failed _ m' _ hfailed =>
    -- That the globals are current again changes nothing in the store.
    exact (hprogram m' (by rw [hfailed]; rfl)).store

/-- A request takes no name from any frame. -/
theorem Session.kept_of_serve {s s' : Session} {request : Request} (h : s.serve request = some s') :
    s.machine.store.Kept s'.machine.store := by
  cases request with
  | tokenize source | parse source | clearFlags =>
    cases h
    exact .refl _
  | run fuel source =>
    obtain ⟨answer, hanswer, rfl⟩ := Option.map_eq_some_iff.mp h
    exact (Turn.ends_of_outcome (t := ⟨s, fuel, source⟩) hanswer).kept

/-- **Over the dealings with a session the names of frames only grow.** -/
theorem Session.History.kept {first s : Session} {dealings : List Dealing} (h : first.History dealings s) :
    first.machine.store.Kept s.machine.store := by
  induction h with
  | start => exact .refl _
  | deal _ hserve ih => exact ih.trans (Session.kept_of_serve hserve)

end Lox
