import Mathlib
import Lox.Proofs.Runs.Dealings
import Lox.Proofs.Runs.Forward

/-!
  Which frames are current.

  Blocks and calls make other frames current while they run.  However they end, by coming to their end, by a
  jump or by an error, those that were current before are so again (`Restores`).  It is a law of all runs: the
  functions of the evaluator change the environment in one place only, which puts it back (`restores_within`).

  A program that an error has ended leaves the globals current, because that is what a run does with an error
  that nothing has caught (`env_of_run`).  So between submissions the globals are always current
  (`Session.History.env`), whatever else has been asked of the session; and also whenever a statement of a
  program has been run and the next one follows (`Moment.env_of_leads`).  What a program declares outside of
  blocks and functions is therefore global.

  The last theorem is a session in which an error is raised in a block of a function that is called; the next
  submission declares a global variable.
-/

namespace Lox

open Machine

namespace Eval

/-- However the action ends, the frames are current that were so before. -/
def Restores {α : Type} (x : Eval α) : Prop := ∀ m m', (x m).state? = some m' → m'.env = m.env

/-- What moves a run forward leaves its frames current. -/
theorem Forward.restores {α : Type} {x : Eval α} (h : Forward x) : Restores x :=
  fun m m' hm => (h m m' hm).env

/-- What has been run with other frames current may leave any of them current. -/
theorem restores_within {α : Type} (env : Env) (x : Eval α) : Restores (within env x) := by
  intro m m' h
  obtain ⟨t, -, rfl⟩ := state?_within h
  rfl

/-- A program that comes to its end leaves the frames current that were so before, and one that fails
    leaves the globals current. -/
theorem env_of_run (fuel : Nat) (program : List Stmt) (m : Machine) :
    match run fuel program m with
    | .done _ m' => m'.env = m.env
    | .failed _ m' => m'.env = .global
    | .exhausted => True := by
  have hall := (forward_closed.program fuel program none).restores m
  unfold run Action.recover
  cases hrun : runAll fuel program none m with
  | done value m' => exact hall m' (by rw [hrun]; rfl)
  | failed error m' => rfl
  | exhausted => trivial

end Eval

open Eval

/-! ## Sessions -/

/-- If the globals are current before a submission, they are so afterwards. -/
theorem Session.env_of_serve {s s' : Session} {request : Request} (henv : s.machine.env = .global)
    (h : s.serve request = some s') : s'.machine.env = .global := by
  -- Only a submission runs anything.
  cases request with
  | tokenize source | parse source | clearFlags =>
    cases h
    exact henv
  | run fuel source =>
    obtain ⟨answer, hanswer, rfl⟩ := Option.map_eq_some_iff.mp h
    have hrun : Turn.outcome? ⟨s, fuel, source⟩ = some answer := hanswer
    cases Turn.ends_of_outcome hrun with
    | unread _ | unmatched _ _ => exact henv
    | done _ hdone =>
      have hall := (forward_closed.program fuel _ none).restores _ _ (by rw [hdone]; rfl)
      exact hall.trans henv
    | failed _ _ => rfl

/-- Between submissions the globals are current. -/
theorem Session.History.env {interactive : Bool} {host : Host} {dealings : List Dealing} {s : Session}
    (h : (Session.start interactive host).History dealings s) : s.machine.env = .global := by
  induction h with
  | start => rfl
  | deal _ hserve ih => exact Session.env_of_serve ih hserve

/-- What lies between the machines before and behind each expression and each statement also lies between
    those on which two statements of a program begin. -/
theorem Moment.between_of_leads {R : Machine → Machine → Prop} (hrefl : ∀ m, R m m)
    (htrans : ∀ {m m' m''}, R m m' → R m' m'' → R m m'')
    (hevaluate : ∀ {n e m v m'}, evaluate n e m = .done v m' → R m m')
    (hexecute : ∀ {n s m completion m'}, execute n s m = .done completion m' → R m m')
    {n k : Nat} {ss ss' : List Stmt} {last last' : Option Value} {m m' : Machine}
    (h : Moment.Leads ⟨n, .program ss last, m⟩ ⟨k, .program ss' last', m'⟩) : R m m' := by
  generalize hμ : (⟨k, .program ss' last', m'⟩ : Moment) = μ at h
  induction h generalizing k ss' last' m' with
  | refl =>
    cases hμ
    exact hrefl _
  | tail _ hcalls ih =>
    subst hμ
    -- Only from one statement of the program does the evaluator come to the rest of it.
    cases hcalls with
    | behindShown he => exact htrans (ih rfl) (hevaluate he)
    | behindStatement _ hs => exact htrans (ih rfl) (hexecute hs)

/-- Each statement of a program finds the frames current with which the program began. -/
theorem Moment.env_of_leads {n k : Nat} {ss ss' : List Stmt} {last last' : Option Value} {m m' : Machine}
    (h : Moment.Leads ⟨n, .program ss last, m⟩ ⟨k, .program ss' last', m'⟩) : m'.env = m.env := by
  refine Moment.between_of_leads (R := fun m m' => m'.env = m.env) (fun _ => rfl) (fun h h' => h'.trans h)
    (fun {n e m v m'} he => ?_) (fun {n s m completion m'} hs => ?_) h
  · exact ((forward n).evaluate e).restores m m' (by rw [he]; rfl)
  · exact ((forward n).execute s).restores m m' (by rw [hs]; rfl)

/-- **The current frames come back.**  On any machine, whatever the text and the recorded distances:
    however an expression, a statement, a call, a block or any statements in other frames end, the
    frames are current that were so before.  Behind a program that fails the globals are current; so
    they are between the submissions of a session, and each statement of a submission finds them
    current, so that what it declares is global. -/
theorem current_frames_come_back (fuel : Nat) :
    Rules @Restores fuel ∧
    (∀ env ss, Restores (within env (executeAll fuel ss))) ∧
    (∀ program m, match run fuel program m with
      | .done _ m' => m'.env = m.env
      | .failed _ m' => m'.env = .global
      | .exhausted => True) ∧
    ∀ interactive host dealings (t : Turn), (Session.start interactive host).History dealings t.session →
      t.session.machine.env = .global ∧
      ∀ k ss last m, t.opening.Leads ⟨k, .program ss last, m⟩ → ∀ name slot,
        define name slot m = atToken name (Store.define Env.global.frame name.lexeme slot) m := by
  refine ⟨(forward fuel).imp Forward.restores Forward.restores, fun env ss => restores_within env _,
    env_of_run fuel, fun interactive host dealings t h => ⟨h.env, ?_⟩⟩
  intro k ss last m hleads name slot
  have henv : m.env = .global := (Moment.env_of_leads hleads).trans h.env
  show atToken name (Store.define m.env.frame name.lexeme slot) m = _
  rw [henv]

/-! ## An error in a call -/

namespace FailedCall

def host : Host := ⟨[], #[], .whole, fun _ => 0, 0⟩

/-- An error is raised in a block of a function that is called. -/
def first : Turn := ⟨.start false host, 16, "func f() \x7b \x7b nil.b; \x7d \x7d f();"⟩

/-- The next submission declares a variable. -/
def second (s : Session) : Turn := ⟨s, 12, "var a = nil;"⟩

/-- The first submission ends with an error inside a function. -/
theorem ends : first.outcome?.map (·.diagnostics) =
    some [.runtime ⟨⟨.identifier, "b", 1⟩, .noProperties⟩] := by
  cbv

/-- The session behind it has a history of one dealing. -/
theorem history {answer : Answered Verdict} (h : first.outcome? = some answer) :
    (Session.start false host).History [⟨first.session, .run first.fuel first.source⟩] answer.session :=
  .turn .start h

end FailedCall

open FailedCall in
/-- The error is raised two frames inside the globals, and the next submission declares a global. -/
theorem current_frames_come_back_after_error : ∃ answer, first.outcome? = some answer ∧
    answer.diagnostics = [.runtime ⟨⟨.identifier, "b", 1⟩, .noProperties⟩] ∧
    answer.session.machine.env = .global ∧
    ∀ name slot, define name slot (second answer.session).machine =
      atToken name (Store.define Env.global.frame name.lexeme slot) (second answer.session).machine := by
  obtain ⟨answer, hanswer, hends⟩ := Option.map_eq_some_iff.mp ends
  obtain ⟨henv, hdeclares⟩ :=
    (current_frames_come_back 12).2.2.2 false host _ (second answer.session) (history hanswer)
  exact ⟨answer, hanswer, hends, henv, hdeclares _ _ _ _ .refl⟩

end Lox
