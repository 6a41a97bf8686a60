import Lox.Proofs.Runs.History

/-!
  Dealings with a session.

  Besides running submissions a session shows the tokens and the program of a source, and has its flags
  cleared.  A dealing is one of these requests, with the session to which it is made.  A session has a
  history of dealings, the latest first (`Session.History`); those that are submissions are its turns
  (`turnsOf`).

  This is the one notion of how a session has come about, and whatever is proved about "every session" is
  proved about every history.  Most of it is about what programs have done, and for that only the
  submissions count: a request to show something moves the number of the next occurrence and may set a
  flag, but the machine stays as it is (`Dealing.Serves`).  So an induction over a history has three cases,
  the session at first, a submission, and a request that leaves the machine alone
  (`Session.History.turns_induction`).  A session in the middle of a history has a history itself, which is
  what is needed to look back at the turn in which a function was made (`Session.History.earlier`).
-/

namespace Lox

/-- What a session is asked to do. -/
inductive Request where
  /-- To show the tokens of a source. -/
  | tokenize (source : String)
  /-- To show the program of a source. -/
  | parse (source : String)
  /-- To run a source with so much fuel. -/
  | run (fuel : Nat) (source : String)
  | clearFlags

/-- The session behind a request; none if the fuel does not suffice. -/
def Session.serve (s : Session) : Request → Option Session
  | .tokenize source => some (s.tokenize source).session
  | .parse source => some (s.parse source).session
  | .run fuel source => (s.run fuel source).map Answered.session
  | .clearFlags => some s.clearFlags

/-- A request, and the session to which it is made. -/
structure Dealing where
  session : Session
  request : Request

namespace Dealing

/-- The submission that the dealing is, if it is one. -/
def turn? (d : Dealing) : Option Turn :=
  match d.request with
  | .run fuel source => some ⟨d.session, fuel, source⟩
  | _ => none

/-- The tree that is made for the dealing; no statements where no tree is made. -/
def program (d : Dealing) : List Stmt :=
  match d.request with
  | .parse source | .run _ source => (d.session.read source).program
  | .tokenize _ | .clearFlags => []

end Dealing

/-- The session has come about from the first by these dealings, the latest of which comes first. -/
inductive Session.History (first : Session) : List Dealing → Session → Prop where
  | start : History first [] first
  | deal {d : Dealing} {dealings : List Dealing} {s : Session} : History first dealings d.session →
    d.session.serve d.request = some s → History first (d :: dealings) s

/-- The submissions among dealings. -/
abbrev turnsOf (dealings : List Dealing) : List Turn := dealings.filterMap Dealing.turn?

/-! ## Submissions, and requests that run nothing -/

/-- **What a request does.**  Either it is a submission, and the session is that of its answer; or it runs
    nothing, and leaves the machine of the session as it is. -/
inductive Dealing.Serves (d : Dealing) : Session → Prop where
  | submitted {t : Turn} {answer : Answered Verdict} : d.turn? = some t → t.session = d.session →
    t.outcome? = some answer → Serves d answer.session
  | shown {s : Session} : d.turn? = none → s.machine = d.session.machine →
    s.interactive = d.session.interactive → Serves d s

theorem Dealing.serves_of_serve {d : Dealing} {s : Session} (h : d.session.serve d.request = some s) :
    d.Serves s := by
  obtain ⟨before, request⟩ := d
  cases request with
  | tokenize source | parse source | clearFlags =>
    cases h
    exact .shown rfl rfl rfl
  | run fuel source =>
    obtain ⟨answer, hanswer, rfl⟩ := Option.map_eq_some_iff.mp h
    exact .submitted (t := ⟨before, fuel, source⟩) rfl rfl hanswer

namespace Session.History

variable {first s : Session} {dealings : List Dealing}

/-- A submission continues a history. -/
theorem turn {t : Turn} {answer : Answered Verdict} (h : first.History dealings t.session)
    (hanswer : t.outcome? = some answer) :
    first.History (⟨t.session, .run t.fuel t.source⟩ :: dealings) answer.session :=
  .deal h (congrArg (Option.map Answered.session) hanswer)

/-- **Induction over the submissions of a history.**  What holds at first, is kept by every submission, and
    does not depend on more than the machine of a session and whether it hands back values, holds of every
    session that comes about.  The other requests do not count: they add no turn, and the machine behind
    them is the one before. -/
theorem turns_induction {motive : List Turn → Session → Prop} (h : first.History dealings s)
    (start : motive [] first)
    (turn : ∀ t turns answer, motive turns t.session → t.outcome? = some answer →
      motive (t :: turns) answer.session)
    (shown : ∀ turns before behind, motive turns before → behind.machine = before.machine →
      behind.interactive = before.interactive → motive turns behind) : motive (turnsOf dealings) s := by
  induction h with
  | start => exact start
  | @deal d dealings s _ hserve ih =>
    cases Dealing.serves_of_serve hserve with
    | @submitted t answer hturn hsession hanswer =>
      rw [turnsOf, List.filterMap_cons_some hturn]
      exact turn t _ answer (hsession ▸ ih) hanswer
    | shown hturn hmachine hinteractive =>
      rw [turnsOf, List.filterMap_cons_none hturn]
      exact shown _ _ _ ih hmachine hinteractive

/-- Every submission of a history was made to a session that had a history itself, an earlier part of this
    one. -/
theorem earlier (h : first.History dealings s) {t : Turn} (ht : t ∈ turnsOf dealings) :
    ∃ before, first.History before t.session ∧ t :: turnsOf before ⊆ turnsOf dealings := by
  induction h with
  | start => cases ht
  | @deal d dealings s hbefore hserve ih =>
    cases Dealing.serves_of_serve hserve with
    | @submitted u answer hturn hsession hanswer =>
      rw [turnsOf, List.filterMap_cons_some hturn] at ht ⊢
      rcases List.mem_cons.mp ht with rfl | ht
      · exact ⟨dealings, hsession ▸ hbefore, fun _ hv => hv⟩
      · obtain ⟨before, hhistory, hsub⟩ := ih ht
        exact ⟨before, hhistory, fun v hv => List.mem_cons_of_mem u (hsub hv)⟩
    | shown hturn _ _ =>
      rw [turnsOf, List.filterMap_cons_none hturn] at ht ⊢
      exact ih ht

end Session.History

end Lox
