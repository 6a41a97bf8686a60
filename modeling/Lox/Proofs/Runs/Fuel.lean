import Lox.Eval
import Lox.Proofs.Copies.Agrees
import Lox.Proofs.Runs.History

/-!
  Fuel.

  More fuel makes no difference to a run that has come to an end with less: it ends in the same way, on the
  same machine (`longer`).  So the answer to a submission does not depend on the fuel either
  (`Turn.outcome_of_le`), and a program has at most one way to end.

  `Extends x y` says that `y` ends as `x` does wherever `x` ends at all.  It passes through sequences and through
  changes of the current frames.  `Longer n n'` has one field for each function of the evaluator, and
  `Longer.succ` is the step of the induction: with one more unit on both sides every function makes its calls
  with fuel that is known to extend.
-/

namespace Lox

open Machine

namespace Eval

/-- Where the first action ends, the second ends just so. -/
def Extends {α : Type} (x y : Eval α) : Prop := Action.Agrees True Eq Eq Eq x y

namespace Extends

variable {α β : Type} {x y : Eval α}

/-- A run extends itself. -/
theorem refl (x : Eval α) : Extends x x := by
  rintro m _ rfl
  cases hrun : x m with
  | done a m' => exact .done rfl rfl
  | failed error m' => exact .failed rfl rfl
  | exhausted => exact .exhausted

/-- Everything extends what is out of fuel. -/
theorem outOfFuel : Extends (.outOfFuel : Eval α) y := Action.Agrees.of_short trivial

/-- One part and then the other; the second part is asked only where the first has ended. -/
theorem bind {f g : α → Eval β} (h : Extends x y) (hf : ∀ a, Extends (f a) (g a)) :
    Extends (x >>= f) (y >>= g) := by
  refine Action.Agrees.bind h ?_
  rintro a _ rfl
  exact hf a

/-- What is done with the answer may be left open. -/
theorem first (f : α → Eval β) (h : Extends x y) : Extends (x >>= f) (y >>= f) := h.bind fun a => refl (f a)

theorem map (f : α → β) (h : Extends x y) : Extends (f <$> x) (f <$> y) :=
  Action.Agrees.map h fun _ _ => congrArg f

/-- Inside other frames as outside. -/
theorem within (env : Env) (h : Extends x y) : Extends (Machine.within env x) (Machine.within env y) := by
  refine Action.Agrees.keeping ?_ ?_
  · rintro m _ m' _ rfl rfl
    rfl
  · refine Action.Agrees.bind (Action.Agrees.update ?_) fun _ _ _ => h
    rintro m _ rfl
    rfl

theorem optional {value value' : Expr → Eval Value} (h : ∀ e, Extends (value e) (value' e)) (e : Option Expr) :
    Extends (Eval.optional value e) (Eval.optional value' e) := by
  cases e with
  | none => exact refl _
  | some e => exact (h e).map some

/-- An action that has ended ends so in the other. -/
theorem eq_of_ended (h : Extends x y) {m : Machine} (hended : x m ≠ .exhausted) : y m = x m := by
  have hends := h m m rfl
  generalize x m = ending, y m = ending' at hends hended
  cases hends with
  | done ha hm => rw [ha, hm]
  | failed he hm => rw [he, hm]
  | exhausted => exact absurd rfl hended
  | short => exact absurd rfl hended

end Extends

/-- Whatever has ended with the one fuel ends just so with the other. -/
structure Longer (n n' : Nat) : Prop where
  evaluate : ∀ e, Extends (evaluate n e) (evaluate n' e)
  evaluateAll : ∀ es, Extends (evaluateAll n es) (evaluateAll n' es)
  call : ∀ v paren given, Extends (call n v paren given) (call n' v paren given)
  callClosure : ∀ c given, Extends (callClosure n c given) (callClosure n' c given)
  execute : ∀ s, Extends (execute n s) (execute n' s)
  executeAll : ∀ ss, Extends (executeAll n ss) (executeAll n' ss)

/-- Each function looks at its argument and calls others with less fuel; so what extends them extends it. -/
theorem Longer.succ {n n' : Nat} (ih : Longer n n') : Longer (n + 1) (n' + 1) where
  -- Every function goes on with less fuel, for which more is no difference by induction.
  evaluate e := by
    cases e with
    | literal | «variable» | lambda | this | super => exact .refl _
    | grouping inner => exact ih.evaluate inner
    | unary operator right => exact (ih.evaluate right).first _
    | binary left operator right => exact (ih.evaluate left).bind fun a => (ih.evaluate right).first _
    | logical left operator right =>
      refine (ih.evaluate left).bind fun a => ?_
      split
      · exact .refl _
      · exact ih.evaluate right
    | ternary condition thenBranch elseBranch =>
      refine (ih.evaluate condition).bind fun v => ?_
      split
      · exact ih.evaluate thenBranch
      · exact ih.evaluate elseBranch
    | assign ref value => exact (ih.evaluate value).first _
    | call callee paren arguments =>
      exact (ih.evaluate callee).bind fun function => (ih.evaluateAll arguments).bind fun given =>
        ih.call function paren given
    | get object name => exact (ih.evaluate object).first _
    | set object name value =>
      refine (ih.evaluate object).bind fun target => ?_
      cases target with
      | object id c => exact (ih.evaluate value).first _
      | _ => exact .refl _
  evaluateAll es := by
    cases es with
    | nil => exact .refl _
    | cons e es => exact (ih.evaluate e).bind fun v => (ih.evaluateAll es).first _
  call v paren given := by
    cases v with
    | function id closure => exact ih.callClosure closure given
    | classOf c =>
      refine (Extends.refl _).bind fun id => ?_
      dsimp only
      cases c.method? "init" with
      | none => exact .refl _
      | some init => exact (Extends.refl _).bind fun ready => (ih.callClosure ready given).first _
    | _ => exact .refl _
  callClosure c given :=
    (Extends.refl _).bind fun env => (Extends.refl _).bind fun _ =>
      ((ih.executeAll c.declaration.body).within env).first _
  execute s := by
    cases s with
    | expression value => exact (ih.evaluate value).first _
    | value value => exact (ih.evaluate value).first _
    | varDecl name initializer => exact (Extends.optional ih.evaluate initializer).first _
    | block body => exact (Extends.refl _).bind fun env => (Extends.refl _).bind fun inner =>
        (ih.executeAll body).within inner
    | ifElse condition thenBranch elseBranch =>
      refine (ih.evaluate condition).bind fun v => ?_
      split
      · exact ih.execute thenBranch
      · cases elseBranch with
        | none => exact .refl _
        | some branch => exact ih.execute branch
    | whileLoop condition body =>
      refine (ih.evaluate condition).bind fun v => ?_
      split
      · refine (ih.execute body).bind fun completion => ?_
        cases completion with
        | normal => exact ih.execute (.whileLoop condition body)
        | _ => exact .refl _
      · exact .refl _
    | breakLoop | funcDecl | classDecl => exact .refl _
    | returnValue keyword value => exact (Extends.optional ih.evaluate value).first _
  executeAll ss := by
    cases ss with
    | nil => exact .refl _
    | cons s ss =>
      refine (ih.execute s).bind fun completion => ?_
      cases completion with
      | normal => exact ih.executeAll ss
      | _ => exact .refl _

/-- **More fuel changes nothing about a run that has ended.** -/
theorem longer {n n' : Nat} (h : n ≤ n') : Longer n n' := by
  induction n generalizing n' with
  | zero => constructor <;> intros <;> exact .outOfFuel
  | succ n ih =>
    obtain ⟨k, rfl⟩ : ∃ k, n' = k + 1 := ⟨n' - 1, by omega⟩
    exact (ih (by omega)).succ

/-- By induction on the statements. -/
theorem longer_program {n n' : Nat} (h : n ≤ n') (ss : List Stmt) (last : Option Value) :
    Extends (runAll n ss last) (runAll n' ss last) := by
  have hlonger := longer h
  induction ss generalizing last with
  | nil => exact .refl _
  | cons s ss ih =>
    have hstatement : Extends (execute n s >>= fun _ => runAll n ss last)
        (execute n' s >>= fun _ => runAll n' ss last) := (hlonger.execute s).bind fun _ => ih last
    cases s with
    | value e => exact (hlonger.evaluate e).bind fun v => ih (some v)
    | _ => exact hstatement

end Eval

/-- **The answer to a submission is the same with more fuel.** -/
theorem Turn.outcome_of_le {t : Turn} {answer : Answered Verdict} {n : Nat} (h : t.outcome? = some answer)
    (hle : t.fuel ≤ n) : Turn.outcome? { t with fuel := n } = some answer := by
  by_cases ha : t.Accepted
  · have ha' : Turn.Accepted { t with fuel := n } := ⟨ha.read, ha.matched⟩
    rw [outcome_accepted ha] at h
    -- There is an answer, so the fuel has sufficed, and more does not change the run.
    have hended : Eval.runAll t.fuel t.parsed.program none t.machine ≠ .exhausted := by
      intro hexhausted
      rw [hexhausted] at h
      cases h
    have hrun : Eval.runAll n (Turn.parsed { t with fuel := n }).program none
        (Turn.machine { t with fuel := n }) = Eval.runAll t.fuel t.parsed.program none t.machine :=
      (Eval.longer_program hle t.parsed.program none).eq_of_ended hended
    rw [outcome_accepted ha', hrun]
    exact h
  · by_cases hread : t.parsed.diagnostics = []
    · have hmatched : t.resolved.diagnostics ≠ [] := fun hmatched => ha ⟨hread, hmatched⟩
      rw [outcome_unmatched hread hmatched] at h
      rw [outcome_unmatched (t := { t with fuel := n }) hread hmatched]
      exact h
    · rw [outcome_unread hread] at h
      rw [outcome_unread (t := { t with fuel := n }) hread]
      exact h

/-- With whatever fuel, there is one answer to a submission at most. -/
theorem Turn.outcome_unique {t : Turn} {n : Nat} {answer answer' : Answered Verdict}
    (h : t.outcome? = some answer) (h' : Turn.outcome? { t with fuel := n } = some answer') :
    answer = answer' := by
  have hmore := outcome_of_le h (Nat.le_max_left t.fuel n)
  have hmore' := outcome_of_le h' (Nat.le_max_right t.fuel n)
  exact Option.some.inj (hmore.symm.trans hmore')

end Lox
