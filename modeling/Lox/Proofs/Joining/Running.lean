import Lox.Proofs.Joining.Matching
import Lox.Proofs.Sessions.Traces

/-!
  Running one program behind another.

  A submission whose program is that of a first submission and then that of a second ends as the second does
  behind the first (`Turn.Joins.ends`).  A list of statements is run one after the other, so that the run of
  both lists is the run of the first and then that of the second (`runAll_append`).

  Two things are different in one submission:

  * While the first program runs, the distances of the second are recorded already.  Nothing asks for them: the
    occurrences of the first program, and of functions made before, have smaller numbers.  So the machines are
    copies of each other for all numbers below (`Joins.first_runs`).
  * The first program has no value to show.  In batch mode no statement is a value without a semicolon, so it
    would not have had one either (`runAll_last`).
-/

namespace Lox

open Eval

/-- Statements that hand back no value leave the last one. -/
theorem runAll_last {fuel : Nat} {ss : List Stmt} (hss : ∀ s ∈ ss, ∀ e, s ≠ .value e)
    {last value : Option Value} {m m' : Machine} (h : runAll fuel ss last m = .done value m') :
    value = last := by
  -- No statement changes what is shown.
  induction ss generalizing m with
  | nil =>
    cases h
    rfl
  | cons s ss ih =>
    have hstep : ∀ x : Eval Completion, (x >>= fun _ => runAll fuel ss last) m = .done value m' →
        value = last := fun x hx => by
      obtain ⟨_, m₁, -, hrest⟩ := Action.bind_eq_done_iff.mp hx
      exact ih (fun s hs => hss s (List.mem_cons_of_mem _ hs)) hrest
    cases s with
    | value e => exact absurd rfl (hss _ List.mem_cons_self e)
    | _ => exact hstep _ h

/-- Running two programs is running the one and then the other. -/
theorem runAll_append (fuel : Nat) (ss ss' : List Stmt) (last : Option Value) :
    runAll fuel (ss ++ ss') last = runAll fuel ss last >>= runAll fuel ss' := by
  -- What is shown is handed on from statement to statement.
  induction ss generalizing last with
  | nil => rfl
  | cons s ss ih =>
    have hstep : ∀ x : Eval Completion, (x >>= fun _ => runAll fuel (ss ++ ss') last) =
        (x >>= fun _ => runAll fuel ss last) >>= runAll fuel ss' := fun x => by
      rw [bind_assoc, ih]
    cases s with
    | value e =>
      show (evaluate fuel e >>= fun v => runAll fuel (ss ++ ss') (some v)) =
        (evaluate fuel e >>= fun v => runAll fuel ss (some v)) >>= runAll fuel ss'
      rw [bind_assoc]
      exact congrArg _ (funext fun v => ih (some v))
    | _ => exact hstep _

namespace Turn

/-- A submission that comes to its end was accepted, and its program has run. -/
theorem finished {t : Turn} {answer : Answered Verdict} (h : t.outcome? = some answer)
    {value : Option Value} (hvalue : answer.result = .finished value) :
    t.Accepted ∧ ∃ m, runAll t.fuel t.parsed.program none t.machine = .done value m ∧
      answer.session = { t.behindReading with machine := m } := by
  cases ends_of_outcome h with
  | done ha hrun =>
    cases hvalue
    exact ⟨ha, _, hrun, rfl⟩
  | _ => cases hvalue

/-- The distances that are recorded when the program of a submission runs. -/
theorem resolution_learn (t : Turn) (id : Nat) : t.machine.resolution[id]? =
    t.resolved.resolution[id]?.or t.session.machine.resolution[id]? :=
  Scope.getElem?_learn _ _ _

/-- The submission has the program of a first one and then a rest with higher numbers, and is matched like
    both. -/
structure Joins (t first : Turn) (rest : List Stmt) : Prop where
  session : t.session = first.session
  fuel : first.fuel ≤ t.fuel
  accepted : t.Accepted
  program : t.parsed.program = first.parsed.program ++ rest
  valueless : ∀ s ∈ first.parsed.program, ∀ e, s ≠ .value e
  above : ∀ id < first.parsed.nextId, (resolve rest).resolution[id]? = none
  recorded : ∀ id : Nat, t.resolved.resolution[id]? =
    (resolve rest).resolution[id]?.or first.resolved.resolution[id]?

variable {K : Likeness} {t first second : Turn} {rest : List Stmt} {a₁ a₂ : Answered Verdict}
  {value : Option Value}

/-- The first program runs as it does alone. -/
theorem Joins.first_runs (hj : t.Joins first rest)
    (hstore : first.session.machine.store.Like (.below first.session.nextId) first.session.machine.store)
    {m : Machine} (hrun : runAll first.fuel first.parsed.program none first.machine = .done value m) :
    ∃ m', runAll t.fuel first.parsed.program none t.machine = .done none m' ∧
      m.Like (.below first.parsed.nextId) m' := by
  have hmachine : first.machine.Like (.below first.parsed.nextId) t.machine := by
    have hsame : t.session.machine = first.session.machine := congrArg Session.machine hj.session
    have henv : t.session.machine.env = first.session.machine.env := congrArg Machine.env hsame
    have hhost : t.session.machine.host = first.session.machine.host := congrArg Machine.host hsame
    refine ⟨?_, henv, hhost, ?_⟩
    · show first.session.machine.store.Like _ t.session.machine.store
      rw [hsame]
      exact hstore.mono (Likeness.below_le first.numbered.le)
    · rintro i i' ⟨hi, rfl⟩
      rw [resolution_learn, resolution_learn, hj.recorded, hj.above _ hi, hsame, Option.none_or]
  -- The program is a copy of itself, and runs on machines that are copies, with fuel that is enough.
  have hsuffices : Suffices True first.fuel t.fuel := .inr ⟨trivial, hj.fuel⟩
  have hends := runAll_copies hsuffices first.reads_itself.program .none _ _ hmachine
  rw [hrun] at hends
  cases hrun' : runAll t.fuel first.parsed.program none t.machine with
  | done value' m' =>
    rw [hrun'] at hends
    cases runAll_last hj.valueless hrun'
    cases hends with
    | done _ hm => exact ⟨m', rfl, hm⟩
  | failed error m' =>
    rw [hrun'] at hends
    cases hends
  | exhausted =>
    rw [hrun'] at hends
    cases hends

/-- **A submission that joins two programs ends as the second does behind the first.** -/
theorem Joins.ends (hj : t.Joins first rest)
    (hstore : first.session.machine.store.Like (.below first.session.nextId) first.session.machine.store)
    (h₁ : first.outcome? = some a₁) (hvalue : a₁.result = .finished value)
    (hsession : second.session = a₁.session) (ha : second.Accepted) (hfuel : second.fuel ≤ t.fuel)
    (hcopy : Copy K (.stmts second.parsed.program) (.stmts rest))
    (hnextId : t.parsed.nextId = second.parsed.nextId)
    (hle : (Likeness.below first.parsed.nextId).Le K) (hsame : ∀ i i', K.number i i' → i' = i)
    (h₂ : second.outcome? = some a₂) :
    ∃ a, t.outcome? = some a ∧ a₂.Like K a ∧
      a.session = { a₂.session with machine := a.session.machine } := by
  obtain ⟨-, m, hrun, hbehind⟩ := finished h₁ hvalue
  obtain ⟨m', hrun', hm⟩ := hj.first_runs hstore hrun
  have hmachine : second.machine.Like K m' := by
    have hsecond : second.session.machine = m := by rw [hsession, hbehind]
    have hlater := forward_closed.program _ _ _ _ _ (congrArg Ending.state? hrun)
    have hlater' := forward_closed.program _ _ _ _ _ (congrArg Ending.state? hrun')
    -- Behind both the same has been recorded, be it at once or one after the other.
    refine ⟨?_, ?_, ?_, fun i i' hi => ?_⟩
    · show second.session.machine.store.Like K m'.store
      rw [hsecond]
      exact hm.store.mono hle
    · show m'.env = second.session.machine.env
      rw [hsecond, hm.env]
    · show m'.host = second.session.machine.host
      rw [hsecond, hm.host]
    · have hfound : (resolve rest).resolution[i']? = second.resolved.resolution[i]? :=
        (resolve_copies hcopy).resolution i i' hi
      cases hsame i i' hi
      rw [hlater'.resolution, resolution_learn, resolution_learn, hj.recorded, hfound, Option.or_assoc,
        hsecond, hlater.resolution, resolution_learn, hj.session]
  have hsuffices : Suffices True second.fuel t.fuel := .inr ⟨trivial, hfuel⟩
  have hlast : Option.Rel (Value.Like K) none none := .none
  have hends := runAll_copies hsuffices hcopy hlast _ _ hmachine
  -- The first program hands back no value, so the rest is run as a program of its own.
  have hjoined : runAll t.fuel t.parsed.program none t.machine = runAll t.fuel rest none m' := by
    rw [hj.program, runAll_append, Action.bind_of_done hrun']
  have hsessions : t.behindReading = { second.behindReading with machine := t.session.machine } := by
    rw [behindReading, behindReading, hsession, hbehind, behindReading, hj.session, hnextId]
  rw [outcome_accepted ha] at h₂
  rw [outcome_accepted hj.accepted, hjoined]
  generalize runAll second.fuel second.parsed.program none second.machine = ending at hends h₂
  generalize runAll t.fuel rest none m' = ending' at hends
  cases hends with
  | done hv hlike =>
    cases h₂
    refine ⟨_, rfl, ⟨.finished hv, .nil, hlike⟩, ?_⟩
    rw [hsessions]
  | failed he hlike =>
    cases h₂
    refine ⟨_, rfl, ⟨.aborted he, .cons (.runtime he) .nil, hlike.store, rfl, hlike.host,
      hlike.resolution⟩, ?_⟩
    rw [hsessions]
  | exhausted => cases h₂
  | short _ => cases h₂

end Turn

end Lox
