import Mathlib
import Lox.Proofs.Jumps.Loose
import Lox.Proofs.Lexical.Dealings
import Lox.Proofs.Runs.Forward

/-!
  Where jumps end.

  A statement that is completed by a jump has the jump loose in it (`Moment.Completes.loose`): it can be left by
  one only if there is one to leave it by.  What happens with the jump is followed from its moment outward.

  * `Passes j μ μ'` says that `μ'` is directly within `μ` and nothing there stops the jump: blocks, branches and
    lists of statements do not, and a loop does not stop a `return`.  The completion passes outward, and nothing
    else is done on the way (`Passes.completes`, `Within.completes`).
  * `Catches j μ body` says that `μ` is what stops it: the loop whose round is being run, or the call whose body
    is being run.
  * Going inward from the start of a program, whatever can be left by a jump lies within what catches it
    (`caught_of_leads`, by induction with one case for each call of the evaluator).  The start itself and the
    body of a function are the two places where this could fail; but as no `break` is loose in the body of a
    function and no jump is loose in a program (`Tight`), nothing there can be left by a jump.

  So a `break` ends the innermost loop, a `return` the innermost call, and no jump gets any further
  (`jumps_are_caught`).
-/

namespace Lox

open Machine Eval

/-- The jump by which statements are completed so. -/
def Completion.jump? : Completion → Option Jump
  | .normal => none
  | .broke => some .break
  | .returned _ => some .return

namespace Activity

/-- Statements are about to be run. -/
def IsStatements : Activity → Prop
  | .execute _ | .executeAll _ => True
  | _ => False

/-- A loop is about to be run. -/
def IsLoop : Activity → Prop
  | .execute (.whileLoop _ _) => True
  | _ => False

/-- When the jump is executed within the statements it leaves them. -/
def Loose (j : Jump) : Activity → Prop
  | .execute s => s.Loose j
  | .executeAll ss => ∃ s ∈ ss, s.Loose j
  | _ => False

end Activity

namespace Moment

/-- The statements that are about to be run are completed in this way, on this machine. -/
def Completes : Moment → Completion → Machine → Prop
  | ⟨n, .execute s, m⟩, c, m' => execute n s m = .done c m'
  | ⟨n, .executeAll ss, m⟩, c, m' => executeAll n ss m = .done c m'
  | _, _, _ => False

/-- The machine with the frames of the moment current. -/
def back (μ : Moment) (m : Machine) : Machine := { m with env := μ.machine.env }

/-- A moment that is left in its own environment is left as it is. -/
theorem back_of_env {μ : Moment} {m : Machine} (h : m.env = μ.machine.env) : μ.back m = m := by
  unfold back
  rw [← h]

/-- What completes leaves the environment as it was. -/
theorem Completes.env {μ : Moment} {c : Completion} {m : Machine} (h : μ.Completes c m) :
    m.env = μ.machine.env := by
  obtain ⟨n, activity, m₀⟩ := μ
  cases activity with
  | execute s => exact ((forward n).execute s m₀ m (by rw [h]; rfl)).env
  | executeAll ss => exact ((forward n).executeAll ss m₀ m (by rw [h]; rfl)).env
  | _ => cases h

end Moment

/-! ## What is completed by a jump

  A statement is completed by a jump only if the jump stands in it and nothing in it stops the jump. -/

/-- What has been done within other frames ends in the present ones again. -/
theorem within_done {α : Type} {env : Env} {x : Eval α} {m m' : Machine} {a : α} :
    within env x m = .done a m' ↔
      ∃ t, x { m with env := env } = .done a t ∧ m' = { t with env := m.env } := by
  unfold within Action.keeping
  rw [Action.bind_of_done (show Action.update _ m = .done () { m with env := env } from rfl)]
  cases x { m with env := env } <;> simp [eq_comm]

/-- What is only run before a normal completion ends in that. -/
theorem normal_of_bind {α : Type} {x : Eval α} {m m' : Machine} {c : Completion}
    (h : (x >>= fun _ => pure .normal) m = .done c m') : c = .normal := by
  obtain ⟨_, _, _, hc⟩ := Action.bind_eq_done_iff.mp h
  cases hc
  rfl

/-- With so much fuel a jump that leaves statements is loose in them. -/
structure LeavesLoose (n : Nat) : Prop where
  execute : ∀ {s m c m' j}, Eval.execute n s m = .done c m' → c.jump? = some j → s.Loose j
  executeAll : ∀ {ss m c m' j}, Eval.executeAll n ss m = .done c m' → c.jump? = some j →
    ∃ s ∈ ss, s.Loose j

section Steps

variable {n : Nat} (ih : LeavesLoose n) {m m' : Machine} {c : Completion} {j : Jump}
  (hj : c.jump? = some j)
include ih hj

/-- Only what passes a jump on, and the jumps themselves, are not completed normally. -/
theorem LeavesLoose.execute_succ {s : Stmt} (h : Eval.execute (n + 1) s m = .done c m') : s.Loose j := by
  have hnormal : c ≠ .normal := by
    rintro rfl
    cases hj
  cases s with
  | expression e => exact absurd (normal_of_bind h) hnormal
  | value e => exact absurd (normal_of_bind h) hnormal
  | varDecl name e =>
    obtain ⟨slot, m₁, -, h⟩ := Action.bind_eq_done_iff.mp h
    exact absurd (normal_of_bind h) hnormal
  | block ss =>
    obtain ⟨env, m₁, -, h⟩ := Action.bind_eq_done_iff.mp h
    obtain ⟨inner, m₂, -, h⟩ := Action.bind_eq_done_iff.mp h
    obtain ⟨t, hbody, -⟩ := within_done.mp h
    obtain ⟨s, hs, hloose⟩ := ih.executeAll hbody hj
    exact .block hs hloose
  | ifElse condition thenBranch elseBranch =>
    obtain ⟨value, m₁, -, h⟩ := Action.bind_eq_done_iff.mp h
    split at h
    · exact .thenBranch (ih.execute h hj)
    · cases elseBranch with
      | none =>
        cases h
        cases hj
      | some branch => exact .elseBranch (ih.execute h hj)
  | whileLoop condition body =>
    obtain ⟨value, m₁, -, h⟩ := Action.bind_eq_done_iff.mp h
    split at h
    · -- The loop goes on behind a normal round, ends at a break, and passes on a return.
      obtain ⟨completion, m₂, hround, h⟩ := Action.bind_eq_done_iff.mp h
      cases completion with
      | normal => exact ih.execute h hj
      | broke =>
        cases h
        cases hj
      | returned v =>
        cases h
        cases hj
        exact .whileLoop (ih.execute hround rfl)
    · cases h
      cases hj
  | breakLoop keyword =>
    cases h
    cases hj
    exact .breakLoop
  | funcDecl d =>
    obtain ⟨env, m₁, -, h⟩ := Action.bind_eq_done_iff.mp h
    obtain ⟨value, m₂, -, h⟩ := Action.bind_eq_done_iff.mp h
    exact absurd (normal_of_bind h) hnormal
  | classDecl name superclass methods => exact absurd (normal_of_bind h) hnormal
  | returnValue keyword e =>
    obtain ⟨result, m₁, -, h⟩ := Action.bind_eq_done_iff.mp h
    cases h
    cases hj
    exact .returnValue

/-- The first statement that is completed by a jump has it loose in it. -/
theorem LeavesLoose.executeAll_succ {ss : List Stmt} (h : Eval.executeAll (n + 1) ss m = .done c m') :
    ∃ s ∈ ss, s.Loose j := by
  cases ss with
  | nil =>
    cases h
    cases hj
  | cons s ss =>
    obtain ⟨completion, m₁, hfirst, h⟩ := Action.bind_eq_done_iff.mp h
    cases completion with
    | normal =>
      obtain ⟨s', hs', hloose⟩ := ih.executeAll h hj
      exact ⟨s', List.mem_cons_of_mem s hs', hloose⟩
    | broke | returned v =>
      cases h
      exact ⟨s, List.mem_cons_self, ih.execute hfirst hj⟩

end Steps

/-- **A jump that leaves statements is loose in them.** -/
theorem leavesLoose (n : Nat) : LeavesLoose n := by
  induction n with
  | zero => exact ⟨nofun, nofun⟩
  | succ n ih => exact ⟨fun h hj => ih.execute_succ hj h, fun h hj => ih.executeAll_succ hj h⟩

/-- What is completed by a jump has it loose in it. -/
theorem Moment.Completes.loose {μ : Moment} {c : Completion} {m : Machine} {j : Jump}
    (h : μ.Completes c m) (hj : c.jump? = some j) : μ.activity.Loose j := by
  obtain ⟨n, activity, m₀⟩ := μ
  cases activity with
  | execute s => exact (leavesLoose n).execute h hj
  | executeAll ss => exact (leavesLoose n).executeAll h hj
  | _ => cases h

/-! ## How a completion passes outward

  From a statement that is completed by a jump to the one around it, as long as nothing stops it. -/

/-- The statements at the second moment are directly within those at the first, which the jump leaves
    with them. -/
structure Passes (j : Jump) (μ μ' : Moment) : Prop where
  calls : Calls μ μ'
  outer : μ.activity.IsStatements
  inner : μ'.activity.IsStatements
  noLoop : j = .break → ¬ μ.activity.IsLoop

/-- The jump leaves the statements at the second moment and all that is around them up to the first. -/
abbrev Within (j : Jump) : Moment → Moment → Prop := Relation.ReflTransGen (Passes j)

/-- Evaluating an expression leaves the frames current that were. -/
theorem env_of_evaluate {n : Nat} {e : Expr} {m m' : Machine} {v : Value}
    (h : evaluate n e m = .done v m') : m'.env = m.env :=
  ((forward n).evaluate e m m' (by rw [h]; rfl)).env

/-- A statement leaves the environment as it was. -/
theorem env_of_execute {n : Nat} {s : Stmt} {m m' : Machine} {c : Completion}
    (h : execute n s m = .done c m') : m'.env = m.env :=
  ((forward n).execute s m m' (by rw [h]; rfl)).env

/-- A completion by a jump passes to the statements directly around, and nothing else is done. -/
theorem Passes.completes {j : Jump} {μ μ' : Moment} (h : Passes j μ μ') {c : Completion}
    (hj : c.jump? = some j) {m : Machine} (hc : μ'.Completes c m) : μ.Completes c (μ.back m) := by
  obtain ⟨hcalls, houter, hinner, hloop⟩ := h
  have henv := hc.env
  -- What is done around the part: its operand has been evaluated before, and behind it the jump is handed on.
  cases hcalls with
  | block hpush =>
    cases hpush
    exact within_done.mpr ⟨m, hc, rfl⟩
  | thenBranch hx htruthy =>
    rw [Moment.back_of_env (henv.trans (env_of_evaluate hx))]
    refine Action.bind_eq_done_iff.mpr ⟨_, _, hx, ?_⟩
    rw [if_pos htruthy]
    exact hc
  | elseBranch hx hfalse =>
    rw [Moment.back_of_env (henv.trans (env_of_evaluate hx))]
    refine Action.bind_eq_done_iff.mpr ⟨_, _, hx, ?_⟩
    rw [if_neg (ne_true_of_eq_false hfalse)]
    exact hc
  | round hx htruthy =>
    rw [Moment.back_of_env (henv.trans (env_of_evaluate hx))]
    refine Action.bind_eq_done_iff.mpr ⟨_, _, hx, ?_⟩
    rw [if_pos htruthy]
    refine Action.bind_eq_done_iff.mpr ⟨_, _, hc, ?_⟩
    cases c with
    | normal => cases hj
    | broke =>
      cases hj
      exact absurd trivial (hloop rfl)
    | returned v => rfl
  | again hx htruthy hx' =>
    rw [Moment.back_of_env (henv.trans ((env_of_execute hx').trans (env_of_evaluate hx)))]
    refine Action.bind_eq_done_iff.mpr ⟨_, _, hx, ?_⟩
    rw [if_pos htruthy]
    exact Action.bind_eq_done_iff.mpr ⟨_, _, hx', hc⟩
  -- The other statements of the list are not run.
  | firstStmt =>
    refine Action.bind_eq_done_iff.mpr ⟨_, _, hc, ?_⟩
    rw [@Moment.back_of_env ⟨_, .executeAll _, _⟩ m henv]
    cases c with
    | normal => cases hj
    | broke => rfl
    | returned v => rfl
  | otherStmts hx =>
    rw [Moment.back_of_env (henv.trans (env_of_execute hx))]
    exact Action.bind_eq_done_iff.mpr ⟨_, _, hx, hc⟩
  | _ => first | exact houter.elim | exact hinner.elim

/-- So it passes to all statements around that the jump leaves. -/
theorem Within.completes {j : Jump} {μ μ' : Moment} (h : Within j μ μ') {c : Completion}
    (hj : c.jump? = some j) {m : Machine} (hc : μ'.Completes c m) : μ.Completes c (μ.back m) := by
  induction h using Relation.ReflTransGen.head_induction_on with
  | refl => rwa [Moment.back_of_env hc.env]
  | head hpasses _ ih =>
    have houter := hpasses.completes hj ih
    exact houter

/-! ## Where a jump is caught

  A loop takes a `break`, a call takes a `return`, and each ends with it. -/

/-- The jump is caught at the first moment when it leaves what is about to be done at the second: the
    body of a loop in one of its rounds, or the body of the function that is called. -/
inductive Catches : Jump → Moment → Moment → Prop where
  | round {n c b m v m'} : evaluate n c m = .done v m' → v.truthy = true →
    Catches .break ⟨n + 1, .execute (.whileLoop c b), m⟩ ⟨n, .execute b, m'⟩
  | body {n closure given m env m' m''} : make (Store.push closure.env .empty) m = .done env m' →
    defineParams env.frame closure.declaration.params given m' = .done () m'' →
    Catches .return ⟨n + 1, .callClosure closure given, m⟩
      ⟨n, .executeAll closure.declaration.body, { m'' with env := env }⟩

/-- The loop goes on at the second moment, after one more round. -/
inductive Repeats : Moment → Moment → Prop where
  | again {n c b m v m' m''} : evaluate n c m = .done v m' → v.truthy = true →
    execute n b m' = .done .normal m'' →
    Repeats ⟨n + 1, .execute (.whileLoop c b), m⟩ ⟨n, .execute (.whileLoop c b), m''⟩

/-- The second moment is one of the first, of the same loop, after any number of rounds. -/
abbrev Rounds : Moment → Moment → Prop := Relation.ReflTransGen Repeats

/-- A loop is completed as it is after some of its rounds. -/
theorem Rounds.completes {μ μ' : Moment} (h : Rounds μ μ') {c : Completion} {m : Machine}
    (hc : μ'.Completes c m) : μ.Completes c m := by
  induction h using Relation.ReflTransGen.head_induction_on with
  | refl => exact hc
  | head hrepeats _ ih =>
    cases hrepeats with
    | again hx htruthy hx' =>
      refine Action.bind_eq_done_iff.mpr ⟨_, _, hx, ?_⟩
      rw [if_pos htruthy]
      exact Action.bind_eq_done_iff.mpr ⟨_, _, hx', ih⟩

/-- **A `break` that leaves the body of a loop ends the loop.** -/
theorem Catches.ends_loop {loop body : Moment} (h : Catches .break loop body) {m : Machine}
    (hc : body.Completes .broke m) : loop.Completes .normal (loop.back m) := by
  cases h with
  -- The round of a loop is what a `break` ends; a `return` goes on.
  | round hx htruthy =>
    rw [Moment.back_of_env (hc.env.trans (env_of_evaluate hx))]
    refine Action.bind_eq_done_iff.mpr ⟨_, _, hx, ?_⟩
    rw [if_pos htruthy]
    exact Action.bind_eq_done_iff.mpr ⟨_, _, hc, rfl⟩

/-- **A `return` that leaves the body of a function ends the call.** -/
theorem ends_call {n : Nat} {closure : Closure} {given : List Value} {m₀ m : Machine} {v : Value}
    {body : Moment} (h : Catches .return ⟨n + 1, .callClosure closure given, m₀⟩ body)
    (hc : body.Completes (.returned v) m) :
    callClosure (n + 1) closure given m₀ = answer closure (.returned v) { m with env := m₀.env } := by
  cases h with
  | @body _ _ _ _ env m₁ m₂ hpush hparams =>
    have henv : m₂.env = m₀.env := by
      have hpushed : m₁.env = m₀.env := by
        cases hpush
        rfl
      exact ((forward_closed.defineParams _ _ _) m₁ m₂ (by rw [hparams]; rfl)).env.trans hpushed
    have hbody : within env (executeAll n closure.declaration.body) m₂ =
        .done (.returned v) { m with env := m₀.env } := by
      rw [← henv]
      exact within_done.mpr ⟨m, hc, rfl⟩
    unfold callClosure
    rw [Action.bind_of_done hpush, Action.bind_of_done hparams, Action.bind_of_done hbody]

/-! ## Every jump is caught -/

section Caught

variable {start : Moment}

/-- No jump gets out of the programs and the calls that the evaluator comes to. -/
structure Tight (start : Moment) : Prop where
  program : ∀ n ss last m, start.Leads ⟨n, .program ss last, m⟩ → ∀ s ∈ ss, ∀ j, ¬ s.Loose j
  callClosure : ∀ n closure given m, start.Leads ⟨n, .callClosure closure given, m⟩ →
    ∀ s ∈ closure.declaration.body, ¬ s.Loose .break

/-- Whatever the jump leaves at the moment lies within something that catches it. -/
def Caught (start : Moment) (j : Jump) (μ : Moment) : Prop :=
  ∃ catcher body, start.Leads catcher ∧ Catches j catcher body ∧ Within j body μ

/-- What is caught stays so one step further in. -/
theorem Caught.step {j : Jump} {μ μ' : Moment} (h : Caught start j μ) (hp : Passes j μ μ') :
    Caught start j μ' := by
  obtain ⟨catcher, body, hleads, hcatches, hwithin⟩ := h
  exact ⟨catcher, body, hleads, hcatches, hwithin.tail hp⟩

/-- One step: either the jump passes to what is around, or it is caught there. -/
theorem caught_of_calls (ht : Tight start) {μ μ' : Moment} (hμ : start.Leads μ)
    (ih : ∀ j, μ.activity.Loose j → Caught start j μ) (hc : Calls μ μ') {j : Jump}
    (hj : μ'.activity.Loose j) : Caught start j μ' := by
  have houter := hμ.tail hc
  have hcalls := hc
  -- A loop catches a break and a call a return; everything else between them lets the jump pass.
  cases hc with
  | block hpush =>
    obtain ⟨s, hs, hloose⟩ := hj
    exact (ih j (.block hs hloose)).step ⟨hcalls, trivial, trivial, fun _ h => h⟩
  | thenBranch _ _ =>
    exact (ih j (.thenBranch hj)).step ⟨hcalls, trivial, trivial, fun _ h => h⟩
  | elseBranch _ _ =>
    exact (ih j (.elseBranch hj)).step ⟨hcalls, trivial, trivial, fun _ h => h⟩
  | round hx htruthy =>
    cases j with
    | «break» => exact ⟨_, _, hμ, .round hx htruthy, .refl⟩
    | «return» => exact (ih .return (.whileLoop hj)).step ⟨hcalls, trivial, trivial, nofun⟩
  | again _ _ _ =>
    cases j with
    | «break» => cases hj
    | «return» => exact (ih .return hj).step ⟨hcalls, trivial, trivial, nofun⟩
  | firstStmt =>
    exact (ih j ⟨_, List.mem_cons_self, hj⟩).step ⟨hcalls, trivial, trivial, fun _ h => h⟩
  | otherStmts _ =>
    obtain ⟨s, hs, hloose⟩ := hj
    exact (ih j ⟨s, List.mem_cons_of_mem _ hs, hloose⟩).step
      ⟨hcalls, trivial, trivial, fun _ h => h⟩
  | body hpush hparams =>
    obtain ⟨s, hs, hloose⟩ := hj
    cases j with
    | «break» => exact absurd hloose (ht.callClosure _ _ _ _ hμ s hs)
    | «return» => exact ⟨_, _, hμ, .body hpush hparams, .refl⟩
  | statement _ => exact absurd hj (ht.program _ _ _ _ hμ _ List.mem_cons_self j)
  | _ => exact hj.elim

/-- Whatever a jump leaves that the evaluator comes to lies within something that catches it. -/
theorem caught_of_leads (ht : Tight start) (hstart : ∀ j, ¬ start.activity.Loose j) {μ : Moment}
    (hμ : start.Leads μ) : ∀ j, μ.activity.Loose j → Caught start j μ := by
  induction hμ with
  | refl => exact fun j hj => absurd hj (hstart j)
  | tail hbefore hc ih => exact fun j hj => caught_of_calls ht hbefore ih hc hj

end Caught

/-! ## Accepted submissions -/

/-- A program is run from its front to its end. -/
theorem suffix_of_leads {start : Moment} {program : List Stmt} {last : Option Value}
    (hstart : start.activity = .program program last) {μ : Moment} (h : start.Leads μ)
    {ss : List Stmt} {last' : Option Value} (hμ : μ.activity = .program ss last') :
    ss <:+ program := by
  induction h generalizing ss last' with
  | refl =>
    rw [hstart] at hμ
    cases hμ
    exact List.suffix_refl _
  | tail _ hc ih =>
    cases hc with
    | behindShown _ | behindStatement _ _ =>
      cases hμ
      exact (List.suffix_cons _ _).trans (ih rfl)
    | _ => cases hμ

/-- Reading and matching names see to it that no jump gets out. -/
theorem tight_of_history {interactive : Bool} {host : Host} {dealings : List Dealing} {t : Turn}
    (h : (Session.start interactive host).History dealings t.session) (ha : t.Accepted) :
    Tight t.opening where
  program n ss last m hleads s hs j hloose := by
    obtain ⟨hclosed, hpoised, -⟩ := Lexical.poised_of_history h ha hleads
    cases j with
    | «break» =>
      have hmem : s ∈ t.parsed.program := (suffix_of_leads rfl hleads rfl).subset hs
      have hheld : s.Held false := heldStmts_iff.mp (held_of_read ha.read) s hmem
      cases hloose.inLoop hheld
    | «return» =>
      cases hpoised with
      | program hstands _ =>
        obtain ⟨w, hsettled⟩ := (hclosed.settled hstands.visited).member hs
        exact hsettled.unreturning hloose rfl
  callClosure n closure given m hleads s hs hloose := by
    obtain ⟨-, hpoised, -⟩ := Lexical.poised_of_history h ha hleads
    cases hpoised with
    | callClosure _ hbound _ =>
      -- The function stands in the text of a submission that was read without a fault.
      obtain ⟨-, ⟨u, -, hu, hvisited⟩, -⟩ := hbound
      obtain ⟨inLoop, hheld⟩ := hvisited.held (held_of_read hu.read)
      obtain ⟨declaration, env, isInitializer⟩ := closure
      cases declaration with
      | mk name keyword params body =>
        have hbody : heldStmts false body := hheld
        cases hloose.inLoop (heldStmts_iff.mp hbody s hs)

/-- **Jumps never escape.**  However a submission came to be made, in its run the body of a function
    that is called is never completed by a `break`, and no statement of the program is completed by a
    jump.

    Every `break` that is executed lies within a round of a loop, the innermost one around it in the same
    function body: all statements between are completed by it, with nothing else done, and the loop,
    however many rounds came before, is then completed normally.  Every `return` lies in the same way
    within the body of the innermost call, which then has its answer. -/
theorem jumps_are_caught {interactive : Bool} {host : Host} {dealings : List Dealing} {t : Turn}
    (hhistory : (Session.start interactive host).History dealings t.session) (ha : t.Accepted) :
    (∀ call body, t.opening.Leads call → Catches .return call body →
      ∀ m, ¬ body.Completes .broke m) ∧
    (∀ n s ss last m, t.opening.Leads ⟨n, .program (s :: ss) last, m⟩ →
      ∀ c m', execute n s m = .done c m' → c = .normal) ∧
    (∀ n keyword m, t.opening.Leads ⟨n + 1, .execute (.breakLoop keyword), m⟩ →
      ∃ loop body, t.opening.Leads loop ∧ Catches .break loop body ∧
        Within .break body ⟨n + 1, .execute (.breakLoop keyword), m⟩ ∧
        (∀ μ, Within .break μ ⟨n + 1, .execute (.breakLoop keyword), m⟩ →
          μ.Completes .broke (μ.back m)) ∧
        ∀ first, Rounds first loop → first.Completes .normal (loop.back m)) ∧
    ∀ n keyword e m v m', t.opening.Leads ⟨n, .execute (.returnValue keyword e), m⟩ →
      execute n (.returnValue keyword e) m = .done (.returned v) m' →
      ∃ k closure given m₀ body, t.opening.Leads ⟨k + 1, .callClosure closure given, m₀⟩ ∧
        Catches .return ⟨k + 1, .callClosure closure given, m₀⟩ body ∧
        Within .return body ⟨n, .execute (.returnValue keyword e), m⟩ ∧
        (∀ μ, Within .return μ ⟨n, .execute (.returnValue keyword e), m⟩ →
          μ.Completes (.returned v) (μ.back m')) ∧
        callClosure (k + 1) closure given m₀ =
          answer closure (.returned v) { m' with env := m₀.env } := by
  -- No jump is loose where it should not be, in the program and in all functions that it may call.
  have htight := tight_of_history hhistory ha
  have hcaught := fun μ => caught_of_leads (μ := μ) htight fun j hj => hj.elim
  refine ⟨fun call body hleads hcatches m hbroke => ?_, fun n s ss last m hleads c m' hrun => ?_,
    fun n keyword m hleads => ?_, fun n keyword e m v m' hleads hrun => ?_⟩
  · cases hcatches with
    | body _ _ =>
      obtain ⟨s, hs, hloose⟩ := hbroke.loose rfl
      exact htight.callClosure _ _ _ _ hleads s hs hloose
  · cases hj : c.jump? with
    | none => cases c <;> first | rfl | cases hj
    | some j =>
      exact absurd ((leavesLoose n).execute hrun hj)
        (htight.program _ _ _ _ hleads s List.mem_cons_self j)
  · obtain ⟨loop, body, hloop, hcatches, hwithin⟩ := hcaught _ hleads .break .breakLoop
    have hbroke : Moment.Completes ⟨n + 1, .execute (.breakLoop keyword), m⟩ .broke m := rfl
    have hbetween := fun μ (hμ : Within .break μ _) => hμ.completes rfl hbroke
    have hends := hcatches.ends_loop (hbetween body hwithin)
    exact ⟨loop, body, hloop, hcatches, hwithin, hbetween, fun first hrounds => hrounds.completes hends⟩
  · obtain ⟨call, body, hcall, hcatches, hwithin⟩ := hcaught _ hleads .return .returnValue
    have hreturned : Moment.Completes ⟨n, .execute (.returnValue keyword e), m⟩ (.returned v) m' := hrun
    have hbetween := fun μ (hμ : Within .return μ _) => hμ.completes rfl hreturned
    have hends := hcatches
    cases hcatches with
    | @body k closure given m₀ _ _ _ hpush hparams =>
      have hanswer := ends_call hends (hbetween _ hwithin)
      exact ⟨k, closure, given, m₀, _, hcall, hends, hwithin, hbetween, hanswer⟩

/-! ## A loop that is left -/

namespace LeftLoop

/-- A loop whose one round is left. -/
def turn : Turn := ⟨.start false ⟨[], #[], .whole, fun _ => 0, 0⟩, 9, "while (true) \x7b break; \x7d"⟩

/-- The `break`. -/
def keyword : Token := ⟨.keyword .breakKw, "break", 1⟩

/-- The machine on which the `break` is executed. -/
def inside : Machine :=
  { turn.machine with
    store := { turn.machine.store with frames := turn.machine.store.frames.push .empty }
    env := Env.global.extend turn.machine.store.frames.size }

/-- The program is accepted: the `break` stands in a loop. -/
theorem accepted : turn.Accepted := ⟨by cbv, by cbv⟩

/-- A loop whose body is a `break`. -/
theorem program_eq : turn.parsed.program =
    [.whileLoop (.grouping (.literal (.bool true))) (.block [.breakLoop keyword])] := by
  cbv

/-- The run comes to the `break`. -/
theorem leads : turn.opening.Leads ⟨6, .execute (.breakLoop keyword), inside⟩ := by
  have hprogram := program_eq
  unfold Turn.opening
  rw [hprogram]
  exact .head (.statement nofun) (.head (.round rfl rfl) (.head (.block rfl) (.head .firstStmt .refl)))

end LeftLoop

open LeftLoop in
/-- The `break` is executed, and ends a loop. -/
theorem jumps_are_caught_in_loop :
    turn.Accepted ∧ turn.opening.Leads ⟨6, .execute (.breakLoop keyword), inside⟩ ∧
    ∃ loop body, turn.opening.Leads loop ∧ Catches .break loop body ∧
      Within .break body ⟨6, .execute (.breakLoop keyword), inside⟩ ∧
      loop.Completes .normal (loop.back inside) := by
  obtain ⟨loop, body, hloop, hcatches, hwithin, -, hends⟩ :=
    (jumps_are_caught .start accepted).2.2.1 5 keyword inside leads
  exact ⟨accepted, leads, loop, body, hloop, hcatches, hwithin, hends loop .refl⟩

end Lox
