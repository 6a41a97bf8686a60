import Lox.Proofs.Counting.Steps
import Lox.Proofs.Grammar.Sound

/-!
  Counting loops and what they are lowered to.

  A program and what it is lowered to are run side by side, each with its own fuel, and do the same
  (`faithful`).  The blocks that a counting loop is lowered to cost fuel of their own: for every unit that
  the one side spends the other may spend up to five.  A loop without an initializer has no block around
  it, and there the other side spends nothing before the rounds begin.  So the sides keep pace if the one
  is given five times as much as the other, or the other twice as much as the one (`Side.Pace`): only one
  of them can then be short of fuel.

  1. **The arithmetic of the pace** is kept in a few lemmas on `Side.Pace` and `Side.RoundPace`.  The
     proofs below say how much each side has spent, and these lemmas that the pace is kept.
  2. **The trees of loops** are blocks of one or two statements; what it means to run such a block is
     stated apart from loops (`executeAll_single`, `execute_pair`).
  3. **One function of the evaluator at a time** (`evaluate_succ` and the others): with one unit of fuel
     more both sides do the same if they do so with less.  All but counting loops go in step (`Runs.step`).
  4. **Loops** are the crux.  A round evaluates its condition in the scope of the initializer and runs its
     body in a fresh one; on the other side the increment is evaluated inside the block of the round, one
     scope further in.  That scope has no names, since the body has a block of its own, and so it does not
     matter (`visible`).
  5. `faithful` assembles them by induction on the fuel.
-/

namespace Lox.Counting

namespace Side

/-- How much fuel the sides are given for the same piece of a program, so that only one may be short. -/
def Pace : Side → Nat → Nat → Prop
  | counting, fuel, fuel' => 5 * fuel ≤ fuel'
  | lowered, fuel, fuel' => 2 * fuel' ≤ fuel

/-- How much they are given for the rounds of a loop. -/
def RoundPace : Side → Nat → Nat → Prop
  | counting, fuel, fuel' => 5 * fuel ≤ fuel'
  | lowered, fuel, fuel' => 2 * fuel' ≤ fuel + 1

end Side

variable {short : Side} {α β γ δ : Type} {P : α → β → Prop} {Q : γ → δ → Prop} {fuel fuel' k : Nat}

namespace Side.Pace

/-- A side that has spent some still keeps pace when the other has spent up to five times as much. -/
theorem pred {j : Nat} (h : short.Pace (fuel + 1) (k + j)) (hj : 1 ≤ j ∧ j ≤ 5) : short.Pace fuel k := by
  cases short <;> simp only [Pace] at * <;> omega

/-- When the rounds of a loop begin the other side may be ahead by what it has not spent on a block. -/
theorem rounds {j : Nat} (h : short.Pace (fuel + 1) (k + j)) (hj : j ≤ 5) : short.RoundPace fuel k := by
  cases short <;> simp only [Pace, RoundPace] at * <;> omega

/-- Rounds are given no less than anything else. -/
theorem loosen (h : short.Pace fuel k) : short.RoundPace fuel k := by
  cases short <;> simp only [Pace, RoundPace] at * <;> omega

/-- If the other side has less than five units left, it is the one that is short. -/
theorem short_of_lt (h : short.Pace (fuel + 1) k) (hk : k < 5) : short = .lowered := by
  cases short with
  | counting =>
    simp only [Pace] at h
    omega
  | lowered => rfl

end Side.Pace

namespace Side.RoundPace

/-- Within a round the sides are at the pace of anything else. -/
theorem pred {j : Nat} (h : short.RoundPace (fuel + 1) (k + j)) (hj : 1 ≤ j ∧ j ≤ 5) :
    short.Pace fuel k := by
  cases short <;> simp only [Pace, RoundPace] at * <;> omega

/-- From one round to the next each side spends one unit. -/
theorem next (h : short.RoundPace (fuel + 1) (k + 1)) : short.RoundPace fuel k := by
  cases short <;> simp only [RoundPace] at * <;> omega

/-- The other side is short if it has less than five units left, also between rounds. -/
theorem short_of_lt (h : short.RoundPace (fuel + 1) k) (hk : k < 5) : short = .lowered := by
  cases short with
  | counting =>
    simp only [RoundPace] at h
    omega
  | lowered => rfl

end Side.RoundPace

namespace Runs

/-- A side without fuel does not end. -/
theorem spent (h : short.RoundPace 0 fuel') {y : Nat → Lexical.Run β} (hy : y 0 = .outOfFuel) :
    Runs short P .outOfFuel (y fuel') := by
  intro s r _
  cases short with
  | counting => exact .counting rfl
  | lowered =>
    obtain rfl : fuel' = 0 := by
      simp only [Side.RoundPace] at h
      omega
    rw [hy]
    exact .lowered rfl

/-- The side of what is lowered has fuel left, unless it is short of it. -/
theorem fueled {x : Run α} {y : Nat → Lexical.Run β} (hy : y 0 = .outOfFuel)
    (hshort : fuel' = 0 → short = .lowered) (h : ∀ k, fuel' = k + 1 → Runs short P x (y (k + 1))) :
    Runs short P x (y fuel') := by
  cases fuel' with
  | zero =>
    rw [hy]
    exact fun _ _ _ => .lowered (hshort rfl)
  | succ k => exact h k rfl

/-- A step that costs either side one unit: it may be assumed that the other side has one to spend. -/
theorem step {x : Run α} {y : Nat → Lexical.Run β} (hy : y 0 = .outOfFuel)
    (h : short.Pace (fuel + 1) fuel') (hstep : ∀ k, short.Pace fuel k → Runs short P x (y (k + 1))) :
    Runs short P x (y fuel') :=
  fueled hy (fun hzero => h.short_of_lt (by omega)) fun k hk => hstep k ((hk ▸ h).pred (by omega))

end Runs

/-! ## What loops are lowered to -/

/-- A list of one statement is run as that statement is. -/
theorem executeAll_single (fuel : Nat) (scopes : Scopes) (s : Lox.Stmt) :
    Lexical.executeAll (fuel + 1) scopes [s] = Prod.fst <$> Lexical.execute fuel scopes s := by
  rw [map_eq_pure_bind]
  cases fuel with
  | zero => rfl
  | succ fuel =>
    rw [Lexical.executeAll]
    congr
    funext ⟨completion, inside⟩
    cases completion <;> rfl

/-- Of two statements in a block the second is run if the first is completed normally. -/
theorem execute_pair (fuel : Nat) (scopes : Scopes) (s t : Lox.Stmt) :
    Lexical.execute (fuel + 3) scopes (.block [s, t]) = (do
      match ← Lexical.execute (fuel + 1) (.empty :: scopes) s with
      | (.normal, inside) =>
        let last ← Lexical.execute fuel inside t
        pure (last.1, scopes)
      | (other, _) => pure (other, scopes)) := by
  rw [Lexical.execute, Lexical.executeAll, bind_assoc]
  congr
  funext ⟨completion, inside⟩
  cases completion with
  | normal =>
    dsimp only
    rw [executeAll_single, map_eq_pure_bind, bind_assoc]
    rfl
  | _ => rfl

/-- With less fuel they do not end. -/
theorem execute_pair_short (scopes : Scopes) (s t : Lox.Stmt) (h : fuel < 3) :
    Lexical.execute fuel scopes (.block [s, t]) = .outOfFuel := by
  match fuel with
  | 0 | 1 | 2 => rfl

/-! ## Side by side

  A counting loop on one side, its blocks and its `while` loop on the other.  A round costs the lowered program
  more steps, so the fuel is not the same; `Pace` says how much more is enough. -/

/-- With so much fuel both sides do the same. -/
structure Faithful (short : Side) (fuel : Nat) : Prop where
  evaluate : ∀ {fuel' scopes scopes'} (e : Expr), short.Pace fuel fuel' → visible scopes = visible scopes' →
    Runs short Like (evaluate fuel scopes e) (Lexical.evaluate fuel' scopes' e.lower)
  evaluateAll : ∀ {fuel' scopes scopes'} (es : List Expr), short.Pace fuel fuel' →
    visible scopes = visible scopes' →
    Runs short (List.Forall₂ Like) (evaluateAll fuel scopes es)
      (Lexical.evaluateAll fuel' scopes' (lowerExprs es))
  call : ∀ {fuel' v v' given given'} (paren : Token), short.Pace fuel fuel' → Like v v' →
    List.Forall₂ Like given given' →
    Runs short Like (call fuel v paren given) (Lexical.call fuel' v' paren given')
  callClosure : ∀ {fuel' c c' given given'}, short.Pace fuel fuel' → Lowered c c' →
    List.Forall₂ Like given given' →
    Runs short Like (callClosure fuel c given) (Lexical.callClosure fuel' c' given')
  execute : ∀ {fuel' scopes scopes'} (s : Stmt), short.Pace fuel fuel' → Level scopes scopes' →
    Runs short (fun a b => CompletionLike a.1 b.1 ∧ Level a.2 b.2) (execute fuel scopes s)
      (Lexical.execute fuel' scopes' s.lower)
  rounds : ∀ {fuel' scopes scopes'} (condition increment : Option Expr) (body : List Stmt),
    short.RoundPace fuel fuel' → visible scopes = visible scopes' →
    Runs short (fun a b => CompletionLike a b.1 ∧ b.2 = scopes')
      (rounds fuel scopes condition increment body)
      (Lexical.execute fuel' scopes' (.whileLoop ((lowerOptional condition).getD (.literal (.bool true)))
        (Grammar.roundTree (lowerStmts body) (lowerOptional increment))))
  executeAll : ∀ {fuel' scopes scopes'} (ss : List Stmt), short.Pace fuel fuel' → Level scopes scopes' →
    Runs short CompletionLike (executeAll fuel scopes ss)
      (Lexical.executeAll fuel' scopes' (lowerStmts ss))

/-- Without fuel there is nothing that could differ. -/
theorem faithful_zero (short : Side) : Faithful short 0 where
  evaluate e h _ := .spent h.loosen (y := fun k => Lexical.evaluate k _ e.lower) rfl
  evaluateAll es h _ := .spent h.loosen (y := fun k => Lexical.evaluateAll k _ (lowerExprs es)) rfl
  call paren h _ _ := .spent h.loosen (y := fun k => Lexical.call k _ paren _) rfl
  callClosure h _ _ := .spent h.loosen (y := fun k => Lexical.callClosure k _ _) rfl
  execute s h _ := .spent h.loosen (y := fun k => Lexical.execute k _ s.lower) rfl
  rounds _ _ _ h _ := .spent h (y := fun k => Lexical.execute k _ _) rfl
  executeAll ss h _ := .spent h.loosen (y := fun k => Lexical.executeAll k _ (lowerStmts ss)) rfl

namespace Faithful

variable {scopes scopes' : Scopes}

/-- Expressions are lowered to expressions of the same kind, so both sides go in step. -/
theorem evaluate_succ (ih : Faithful short fuel) (e : Expr) (h : short.Pace (fuel + 1) fuel')
    (hv : visible scopes = visible scopes') :
    Runs short Like (Counting.evaluate (fuel + 1) scopes e) (Lexical.evaluate fuel' scopes' e.lower) := by
  -- Expressions are lowered part by part, so both sides take a step each.
  refine Runs.step (y := fun k => Lexical.evaluate k scopes' e.lower) rfl h fun k hk => ?_
  cases e with
  | literal value => exact .pure (ofLiteral_related value)
  | grouping inner => exact ih.evaluate inner hk hv
  | unary operator right =>
    exact (ih.evaluate right hk hv).bind fun _ _ hright => .liftAt operator (hright.unary operator.kind)
  | binary left operator right =>
    exact (ih.evaluate left hk hv).bind fun _ _ hl => (ih.evaluate right hk hv).bind fun _ _ hr =>
      .liftAt operator (hl.binary operator.kind hr)
  | logical left operator right =>
    refine (ih.evaluate left hk hv).bind fun a a' ha => ?_
    rw [ha.shortCircuits_eq]
    split
    · exact .pure ha
    · exact ih.evaluate right hk hv
  | ternary condition thenBranch elseBranch =>
    refine (ih.evaluate condition hk hv).bind fun a a' ha => ?_
    rw [ha.truthy_eq]
    split
    · exact ih.evaluate thenBranch hk hv
    · exact ih.evaluate elseBranch hk hv
  | «variable» ref => exact .lookUp hv ref.name
  | assign ref value =>
    exact (ih.evaluate value hk hv).bind fun _ _ ha => (Runs.assign hv ref.name ha).bind fun _ _ _ => .pure ha
  | call callee paren arguments =>
    exact (ih.evaluate callee hk hv).bind fun _ _ hcallee =>
      (ih.evaluateAll arguments hk hv).bind fun _ _ hgiven => ih.call paren hk hcallee hgiven
  | get object name => exact (ih.evaluate object hk hv).bind fun _ _ ho => .getProperty ho name
  | set object name value =>
    refine (ih.evaluate object hk hv).bind fun o o' ho => ?_
    cases ho with
    | object identity hc =>
      exact (ih.evaluate value hk hv).bind fun _ _ ha =>
        (Runs.setField identity name ha).bind fun _ _ _ => .pure ha
    | _ => exact .failAt name _
  | lambda text => exact .functionValue (.close text hv false)
  | this ref => exact .lookUp hv ref.name
  | super ref method => exact .superMethod hv ref method

/-- The arguments of a call are evaluated from the first to the last. -/
theorem evaluateAll_succ (ih : Faithful short fuel) (es : List Expr) (h : short.Pace (fuel + 1) fuel')
    (hv : visible scopes = visible scopes') :
    Runs short (List.Forall₂ Like) (Counting.evaluateAll (fuel + 1) scopes es)
      (Lexical.evaluateAll fuel' scopes' (lowerExprs es)) := by
  refine Runs.step (y := fun k => Lexical.evaluateAll k scopes' (lowerExprs es)) rfl h fun k hk => ?_
  cases es with
  | nil => exact .pure .nil
  | cons e es =>
    exact (ih.evaluate e hk hv).bind fun _ _ he => (ih.evaluateAll es hk hv).bind fun _ _ hes =>
      .pure (.cons he hes)

/-- A class makes the instance first and then calls its initializer, if there is one. -/
theorem call_succ (ih : Faithful short fuel) {v : Value Sight} {v' : Value Scopes} (paren : Token)
    (h : short.Pace (fuel + 1) fuel') (hv : Like v v') {given : List (Value Sight)}
    {given' : List (Value Scopes)} (hgiven : List.Forall₂ Like given given') :
    Runs short Like (Counting.call (fuel + 1) v paren given) (Lexical.call fuel' v' paren given') := by
  refine Runs.step (y := fun k => Lexical.call k v' paren given') rfl h fun k hk => ?_
  cases hv with
  | native n => exact .callNative paren n hgiven
  | function id hc => exact ih.callClosure hk hc hgiven
  | @classOf c c' hc =>
    refine Runs.newObject.bind ?_
    rintro identity _ rfl
    have hmethod := hc.method? "init"
    dsimp only
    generalize c.method? "init" = found, c'.method? "init" = found' at hmethod
    cases hmethod with
    | none => exact .pure (.object identity hc)
    | some hm =>
      exact (Runs.bindThis hm (.object identity hc)).bind fun _ _ hready =>
        (ih.callClosure hk hready hgiven).bind fun _ _ _ => .pure (.object identity hc)
  | _ => exact .failAt paren _

/-- The body of a function is run in the scopes around its text, with one more for the parameters. -/
theorem callClosure_succ (ih : Faithful short fuel) {c : Closure Sight} {c' : Closure Scopes}
    (h : short.Pace (fuel + 1) fuel') (hc : Lowered c c') {given : List (Value Sight)}
    {given' : List (Value Scopes)} (hgiven : List.Forall₂ Like given given') :
    Runs short Like (Counting.callClosure (fuel + 1) c given) (Lexical.callClosure fuel' c' given') := by
  refine Runs.step (y := fun k => Lexical.callClosure k c' given') rfl h fun k hk => ?_
  -- The declaration of the one closure has no body; its text has, and that is what the other was lowered
  -- from.
  have hparams : c'.declaration.params = c.env.text.params := by
    rw [hc.text]
    cases c.env.text
    rfl
  have hbody : c'.declaration.body = lowerStmts c.env.text.body := by
    rw [hc.text]
    cases c.env.text
    rfl
  rw [Counting.callClosure, Lexical.callClosure, hparams, hbody]
  exact (Runs.enterParams _ (.inner .empty hc.scopes) hgiven).bind fun _ _ hlevel =>
    (ih.executeAll _ hk hlevel).bind fun _ _ hcompletion => .answer hc hcompletion

/-- The statements are run until one of them is not completed normally. -/
theorem executeAll_succ (ih : Faithful short fuel) (ss : List Stmt) (h : short.Pace (fuel + 1) fuel')
    (hl : Level scopes scopes') :
    Runs short CompletionLike (Counting.executeAll (fuel + 1) scopes ss)
      (Lexical.executeAll fuel' scopes' (lowerStmts ss)) := by
  refine Runs.step (y := fun k => Lexical.executeAll k scopes' (lowerStmts ss)) rfl h fun k hk => ?_
  cases ss with
  | nil => exact .pure .normal
  | cons s ss =>
    refine (ih.execute s hk hl).bind ?_
    rintro ⟨completion, behind⟩ ⟨completion', behind'⟩ ⟨hcompletion, hbehind⟩
    cases hcompletion with
    | normal => exact ih.executeAll ss hk hbehind
    | broke => exact .pure .broke
    | returned hv => exact .pure (.returned hv)

/-! ### Rounds -/

/-- The condition of a loop is true where it is missing. -/
theorem test (ih : Faithful short fuel) (condition : Option Expr) (h : short.Pace fuel k)
    (hzero : k = 0 → short = .lowered) (hv : visible scopes = visible scopes') :
    Runs short (fun test v => v.truthy = (test.getD (.bool true)).truthy)
      (optional (Counting.evaluate fuel scopes) condition)
      (Lexical.evaluate k scopes' ((lowerOptional condition).getD (.literal (.bool true)))) := by
  cases condition with
  | none =>
    exact Runs.fueled (y := fun k => Lexical.evaluate k scopes' (.literal (.bool true))) rfl hzero
      fun _ _ => .pure rfl
  | some e =>
    show Runs short _ (some <$> Counting.evaluate fuel scopes e) (Lexical.evaluate k scopes' e.lower)
    rw [← id_map (Lexical.evaluate k scopes' e.lower)]
    exact (ih.evaluate e h hv).map fun _ _ ha => ha.truthy_eq

/-- The body of a loop is a block. -/
theorem body (ih : Faithful short fuel) (body : List Stmt) (h : short.Pace fuel k)
    (hv : visible scopes = visible scopes') :
    Runs short (fun a b => CompletionLike a b.1 ∧ b.2 = scopes')
      (Counting.executeAll fuel (.empty :: scopes) body)
      (Lexical.execute (k + 1) scopes' (.block (lowerStmts body))) := by
  show Runs short _ _ (Lexical.executeAll k (.empty :: scopes') (lowerStmts body) >>= fun completion =>
    pure (completion, scopes'))
  rw [← bind_pure (Counting.executeAll fuel (.empty :: scopes) body)]
  exact (ih.executeAll body h (.inner .empty hv)).bind fun _ _ hc => .pure ⟨hc, rfl⟩

/-- The increment of a loop is a statement behind the block of the body. -/
theorem increment (ih : Faithful short fuel) (e : Expr) (h : short.Pace fuel k)
    (hv : visible scopes = visible scopes') :
    Runs short (fun _ b => b = (.normal, scopes')) (optional (Counting.evaluate fuel scopes) (some e))
      (Lexical.execute (k + 1) scopes' (.expression e.lower)) := by
  show Runs short _ (some <$> Counting.evaluate fuel scopes e)
    (Lexical.evaluate k scopes' e.lower >>= fun _ => pure (Completion.normal, scopes'))
  rw [map_eq_pure_bind]
  exact (ih.evaluate e h hv).bind fun _ _ _ => .pure rfl

end Faithful

/-- One round: the body, and the increment if the body is completed normally. -/
def round (fuel : Nat) (scopes : Scopes) (increment : Option Expr) (body : List Stmt) :
    Run (Completion Sight) := do
  match ← executeAll fuel (.empty :: scopes) body with
  | .normal =>
    let _ ← optional (evaluate fuel scopes) increment
    pure .normal
  | other => pure other

/-- Rounds follow each other while the condition is true and they are completed normally. -/
theorem rounds_eq (fuel : Nat) (scopes : Scopes) (condition increment : Option Expr) (body : List Stmt) :
    rounds (fuel + 1) scopes condition increment body = (do
      let test ← optional (evaluate fuel scopes) condition
      if (test.getD (.bool true)).truthy then
        match ← round fuel scopes increment body with
        | .normal => rounds fuel scopes condition increment body
        | .broke => pure .normal
        | .returned v => pure (.returned v)
      else
        pure .normal) := by
  rw [rounds]
  congr
  funext test
  congr 1
  rw [round, bind_assoc]
  congr
  funext completion
  -- Only after a normal body there is an increment to be evaluated.
  cases completion with
  | normal =>
    dsimp only
    rw [bind_assoc]
    rfl
  | _ => rfl

namespace Faithful

variable {scopes scopes' : Scopes}

/-- One round, of which the other side runs the body and the increment in a block of their own. -/
theorem round (ih : Faithful short fuel) (increment : Option Expr) (body : List Stmt)
    (h : short.RoundPace (fuel + 1) (k + 1)) (hv : visible scopes = visible scopes') :
    Runs short (fun a b => CompletionLike a b.1) (Counting.round fuel scopes increment body)
      (Lexical.execute k scopes' (Grammar.roundTree (lowerStmts body) (lowerOptional increment))) := by
  cases increment with
  | none =>
    refine Runs.fueled (y := fun k => Lexical.execute k scopes' (.block (lowerStmts body))) rfl
      (fun hzero => h.short_of_lt (by omega)) fun j hj => ?_
    subst hj
    have hbody := ih.body body (h.pred (k := j) (j := 2) (by omega)) hv
    rw [Counting.round, ← bind_pure (Lexical.execute (j + 1) scopes' (.block (lowerStmts body)))]
    refine hbody.bind fun completion last hlast => ?_
    obtain ⟨hcompletion, -⟩ := hlast
    cases hc : last.1 <;> rw [hc] at hcompletion <;> cases hcompletion
    · exact .pure (hc ▸ .normal)
    · exact .pure (hc ▸ .broke)
    · rename_i hv
      exact .pure (hc ▸ .returned hv)
  | some e =>
    show Runs short _ _ (Lexical.execute k scopes' (.block [.block (lowerStmts body), .expression e.lower]))
    by_cases hk : k < 3
    · rw [execute_pair_short scopes' _ _ hk]
      exact fun _ _ _ => .lowered (h.short_of_lt (by omega))
    · obtain ⟨q, rfl⟩ : ∃ q, k = q + 3 := ⟨k - 3, by omega⟩
      have hinside : visible scopes = visible (.empty :: scopes') := hv
      rw [execute_pair, Counting.round]
      refine (ih.body body (h.pred (k := q) (j := 4) (by omega)) hinside).bind ?_
      rintro completion ⟨completion', inside⟩ ⟨hcompletion, rfl⟩
      cases hcompletion with
      | normal =>
        -- The increment is evaluated in one more scope, which has no names.
        refine Runs.fueled (y := fun q => Lexical.execute q (.empty :: scopes') (.expression e.lower) >>=
          fun last => pure (last.1, scopes')) rfl (fun hzero => h.short_of_lt (by omega)) fun p hp => ?_
        subst hp
        refine (ih.increment e (h.pred (k := p) (j := 5) (by omega)) hinside).bind ?_
        rintro _ _ rfl
        exact .pure .normal
      | broke => exact .pure .broke
      | returned hv => exact .pure (.returned hv)

/-- The rounds are those of the `while` loop, one by one: the condition decides whether there is another. -/
theorem rounds_succ (ih : Faithful short fuel) (condition increment : Option Expr) (body : List Stmt)
    (h : short.RoundPace (fuel + 1) fuel') (hv : visible scopes = visible scopes') :
    Runs short (fun a b => CompletionLike a b.1 ∧ b.2 = scopes')
      (Counting.rounds (fuel + 1) scopes condition increment body)
      (Lexical.execute fuel' scopes' (.whileLoop ((lowerOptional condition).getD (.literal (.bool true)))
        (Grammar.roundTree (lowerStmts body) (lowerOptional increment)))) := by
  refine Runs.fueled (y := fun k => Lexical.execute k scopes' (.whileLoop _ _)) rfl
    (fun hzero => h.short_of_lt (by omega)) fun k hk => ?_
  subst hk
  rw [rounds_eq]
  refine (ih.test condition (h.pred (by omega)) (fun hzero => h.short_of_lt (by omega)) hv).bind
    fun test v htest => ?_
  rw [htest]
  split
  · refine (ih.round increment body h hv).bind ?_
    rintro completion ⟨completion', inside⟩ hcompletion
    cases hcompletion with
    | normal => exact ih.rounds condition increment body h.next hv
    | broke => exact .pure ⟨.normal, rfl⟩
    | returned hv => exact .pure ⟨.returned hv, rfl⟩
  · exact .pure ⟨.normal, rfl⟩

/-- The initializer of a counting loop, and the rounds behind it. -/
theorem forLoop (ih : Faithful short fuel) (initializer : Option Stmt) (condition increment : Option Expr)
    (body : List Stmt) (h : short.Pace (fuel + 1) fuel') (hl : Level scopes scopes') :
    Runs short (fun a b => CompletionLike a.1 b.1 ∧ Level a.2 b.2)
      (Counting.execute (fuel + 1) scopes (.forLoop initializer condition increment body))
      (Lexical.execute fuel' scopes' (Stmt.lower (.forLoop initializer condition increment body))) := by
  rw [Stmt.lower, Grammar.countingLoop_block, Counting.execute]
  cases initializer with
  | none =>
    -- The scope around the loop has no names, and there is none for it on the other side.
    show Runs short _ (Counting.rounds fuel (.empty :: scopes) condition increment body >>=
      fun completion => pure (completion, scopes)) (Lexical.execute fuel' scopes' (.whileLoop _ _))
    have hinside : visible (.empty :: scopes) = visible scopes' := hl.visible
    rw [← bind_pure (Lexical.execute fuel' scopes' (.whileLoop _ _))]
    refine (ih.rounds condition increment body (h.rounds (j := 0) (by omega)) hinside).bind ?_
    rintro completion ⟨completion', _⟩ ⟨hcompletion, rfl⟩
    exact .pure ⟨hcompletion, hl⟩
  | some first =>
    show Runs short _ _ (Lexical.execute fuel' scopes' (.block [first.lower, .whileLoop _ _]))
    by_cases hk : fuel' < 3
    · rw [execute_pair_short scopes' _ _ hk]
      exact fun _ _ _ => .lowered (h.short_of_lt (by omega))
    · obtain ⟨q, rfl⟩ : ∃ q, fuel' = q + 3 := ⟨fuel' - 3, by omega⟩
      rw [execute_pair]
      refine (ih.execute first (h.pred (k := q + 1) (j := 2) (by omega)) (.inner .empty hl.visible)).bind ?_
      rintro ⟨completion, inside⟩ ⟨completion', inside'⟩ ⟨hcompletion, hinside⟩
      cases hcompletion with
      | normal =>
        exact (ih.rounds condition increment body (h.rounds (by omega)) hinside.visible).bind
          fun _ _ hc => .pure ⟨hc.1, hl⟩
      | broke => exact .pure ⟨.broke, hl⟩
      | returned hv => exact .pure ⟨.returned hv, hl⟩

/-! ### Statements -/

/-- Statements, of which only counting loops are lowered to something else. -/
theorem execute_succ (ih : Faithful short fuel) (s : Stmt) (h : short.Pace (fuel + 1) fuel')
    (hl : Level scopes scopes') :
    Runs short (fun a b => CompletionLike a.1 b.1 ∧ Level a.2 b.2) (Counting.execute (fuel + 1) scopes s)
      (Lexical.execute fuel' scopes' s.lower) := by
  -- All statements but a counting loop are lowered to one of the same kind.
  have hstep := Runs.step (P := fun a b => CompletionLike a.1 b.1 ∧ Level a.2 b.2)
    (x := Counting.execute (fuel + 1) scopes s) (y := fun k => Lexical.execute k scopes' s.lower) rfl h
  cases s with
  | forLoop initializer condition increment body =>
    exact ih.forLoop initializer condition increment body h hl
  | expression value =>
    exact hstep fun k hk => (ih.evaluate value hk hl.visible).bind fun _ _ _ => .pure ⟨.normal, hl⟩
  | value value =>
    exact hstep fun k hk => (ih.evaluate value hk hl.visible).bind fun _ _ _ => .pure ⟨.normal, hl⟩
  | varDecl name initializer =>
    refine hstep fun k hk => (Runs.announce hl name.lexeme .none).bind fun _ _ hbehind => ?_
    refine (Runs.optional (fun e => ih.evaluate e hk hbehind.visible) initializer).bind fun _ _ hslot => ?_
    exact (Runs.settle hbehind name hslot).bind fun _ _ _ => .pure ⟨.normal, hbehind⟩
  | block body =>
    exact hstep fun k hk => (ih.executeAll body hk (.inner .empty hl.visible)).bind fun _ _ hc =>
      .pure ⟨hc, hl⟩
  | ifElse condition thenBranch elseBranch =>
    refine hstep fun k hk => (ih.evaluate condition hk hl.visible).bind fun a a' ha => ?_
    rw [ha.truthy_eq]
    split
    · exact ih.execute thenBranch hk hl
    · cases elseBranch with
      | none => exact .pure ⟨.normal, hl⟩
      | some branch => exact ih.execute branch hk hl
  | whileLoop condition body =>
    refine hstep fun k hk => (ih.evaluate condition hk hl.visible).bind fun a a' ha => ?_
    rw [ha.truthy_eq]
    split
    · refine (ih.execute body hk hl).bind ?_
      rintro ⟨completion, _⟩ ⟨completion', _⟩ ⟨hcompletion, -⟩
      cases hcompletion with
      | normal => exact ih.execute (.whileLoop condition body) hk hl
      | broke => exact .pure ⟨.normal, hl⟩
      | returned hv => exact .pure ⟨.returned hv, hl⟩
    · exact .pure ⟨.normal, hl⟩
  | breakLoop keyword => exact hstep fun k hk => .pure ⟨.broke, hl⟩
  | funcDecl text =>
    obtain ⟨name, keyword, params, body⟩ := text
    refine hstep fun k hk => (Runs.announce hl (name.getD keyword).lexeme .none).bind fun _ _ hbehind => ?_
    refine (Runs.functionValue (.close _ hbehind.visible false)).bind fun _ _ hv => ?_
    exact (Runs.settle hbehind (name.getD keyword) (.some hv)).bind fun _ _ _ => .pure ⟨.normal, hbehind⟩
  | classDecl name superclass methods =>
    exact hstep fun k hk => (Runs.declareClass hl name superclass methods).bind fun _ _ hbehind =>
      .pure ⟨.normal, hbehind⟩
  | returnValue keyword value =>
    refine hstep fun k hk =>
      (Runs.optional (fun e => ih.evaluate e hk hl.visible) value).bind fun v v' hv => ?_
    refine .pure ⟨.returned ?_, hl⟩
    cases hv with
    | none => exact .nil
    | some hv => exact hv

end Faithful

/-- **Whatever is run does the same on both sides**, with so much fuel that only one can be short. -/
theorem faithful (short : Side) (fuel : Nat) : Faithful short fuel := by
  induction fuel with
  | zero => exact faithful_zero short
  | succ fuel ih =>
    exact {
      evaluate := ih.evaluate_succ
      evaluateAll := ih.evaluateAll_succ
      call := fun paren h hv hgiven => ih.call_succ paren h hv hgiven
      callClosure := fun h hc hgiven => ih.callClosure_succ h hc hgiven
      execute := ih.execute_succ
      rounds := ih.rounds_succ
      executeAll := ih.executeAll_succ }

end Lox.Counting
