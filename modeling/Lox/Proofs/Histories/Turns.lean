import Lox.Proofs.Histories.Tells
import Lox.Proofs.Runs.Dealings

/-!
  The chronicle of a session.

  The log of an accepted turn is that of the moment at which it opens; of any other turn nothing runs, and
  its log is empty (`Turn.log`).  The logs of all turns of a session, one after the other, are its history
  (`historyOf`).

  That history is a chronicle: every event fits in with those before it.  And the machine of the session is
  what the events make of the initial one (`reached_of_history`).  Both are carried along together as
  `Reached`, by an induction over the turns: a turn adds its log to what has come about before
  (`Reached.turn`), and so does an answered submission (`Reached.outcome`).  Requests that run nothing leave
  the machine alone and add no event.

  With this an event in the middle of a turn can be looked at by itself: what happened up to there is a
  chronicle that has made the machine at the event (`reached_in_turn`).  The events and the moments that the
  evaluator comes to are two views of the same runs (`lives_of_mem_history`, `mem_history_of_lives`).
-/

namespace Lox

open Machine Eval

instance (t : Turn) : Decidable t.Accepted :=
  decidable_of_iff (t.parsed.diagnostics.isEmpty = true ∧ t.resolved.diagnostics.isEmpty = true)
    ⟨fun h => ⟨List.isEmpty_iff.mp h.1, List.isEmpty_iff.mp h.2⟩,
      fun h => ⟨List.isEmpty_iff.mpr h.read, List.isEmpty_iff.mpr h.matched⟩⟩

/-- All that happens in the turn. -/
def Turn.log (t : Turn) : List Event := if t.Accepted then t.opening.log else []

/-- All that happens in the turns, the latest of which comes first. -/
def historyOf : List Turn → List Event
  | [] => []
  | t :: turns => historyOf turns ++ t.log

/-- An accepted turn is logged. -/
theorem Turn.log_of_accepted {t : Turn} (ha : t.Accepted) : t.log = t.opening.log := if_pos ha

/-- Of a turn that is not accepted nothing is logged. -/
theorem Turn.log_of_not_accepted {t : Turn} (ha : ¬ t.Accepted) : t.log = [] := if_neg ha

/-- The log of a turn continues what has come about before, to the end of the run. -/
theorem Reached.turn {h : List Event} {t : Turn} (hr : Reached h t.session.machine) (ha : t.Accepted) :
    Chronicle (h ++ t.log) ∧ match runAll t.fuel t.parsed.program none t.machine with
      | .done _ m => Reached (h ++ t.log) m
      | .failed _ m => m.store = replay (h ++ t.log)
      | .exhausted => True := by
  have hopens : Reached h t.machine := ⟨hr.chronicle, hr.store, hr.env⟩
  -- The log is written down to a depth that no call of the run goes below.
  have hdepth : t.fuel + t.parsed.program.length < t.opening.depth := by
    show t.fuel + t.parsed.program.length < t.fuel + t.parsed.program.length + 2
    omega
  have hnone : ∀ v ∈ (none : Option Value), v.Known h := nofun
  have htells := tells_program t.parsed.program hdepth hopens hnone
  have hlog : opened t.opening.depth [.comes ⟨t.fuel, .program t.parsed.program none, t.machine⟩] =
      t.log := by
    rw [Turn.log_of_accepted ha]
    exact List.append_nil _
  unfold Tells at htells
  rw [hlog] at htells
  refine ⟨htells.1, ?_⟩
  have hend := htells.2
  generalize runAll t.fuel t.parsed.program none t.machine = r at hend
  cases r with
  | done a m => exact hend.1
  | failed e m => exact hend
  | exhausted => trivial

/-- What an answered submission has left is what its log makes of what was there before. -/
theorem Reached.outcome {t : Turn} {turns : List Turn} {answer : Answered Verdict}
    (hr : Reached (historyOf turns) t.session.machine) (h : t.outcome? = some answer) :
    Reached (historyOf (t :: turns)) answer.session.machine := by
  have hrejected : ¬ t.Accepted → historyOf (t :: turns) = historyOf turns := fun ha => by
    rw [historyOf, Turn.log_of_not_accepted ha, List.append_nil]
  cases t.ends_of_outcome h with
  | unread hread =>
    rw [hrejected fun ha => hread ha.read]
    exact hr
  | unmatched hread hmatched =>
    rw [hrejected fun ha => hmatched ha.matched]
    exact ⟨hr.chronicle, hr.store, hr.env⟩
  | done ha hrun =>
    have hturn := (hr.turn ha).2
    rw [hrun] at hturn
    exact hturn
  | failed ha hrun =>
    -- Behind an error the globals are current, which are always known.
    obtain ⟨hc, hturn⟩ := hr.turn ha
    rw [hrun] at hturn
    exact ⟨hc, hturn, .global⟩

/-- **The machine of a session is what the events of its turns have made.** -/
theorem reached_of_history {interactive : Bool} {host : Host} {dealings : List Dealing} {s : Session}
    (h : (Session.start interactive host).History dealings s) :
    Reached (historyOf (turnsOf dealings)) s.machine := by
  refine h.turns_induction (motive := fun turns s => Reached (historyOf turns) s.machine)
    ⟨.start, rfl, .global⟩ ?_ ?_
  · intro t turns answer hr hanswer
    exact hr.outcome hanswer
  · intro turns before behind hr hmachine _
    rw [hmachine]
    exact hr

section Turns

variable {interactive : Bool} {host : Host} {dealings : List Dealing} {turns : List Turn} {t : Turn}

/-- What happens up to an event of a turn is a chronicle, and the event fits in with it. -/
theorem reached_in_turn (h : (Session.start interactive host).History dealings t.session) (ha : t.Accepted)
    {done rest : List Event} {e : Event} (hlog : t.opening.log = done ++ e :: rest) :
    Reached (historyOf (turnsOf dealings) ++ done) e.machine ∧
      e.Grounded (historyOf (turnsOf dealings) ++ done) := by
  have hchronicle := ((reached_of_history h).turn ha).1
  have hsplit : historyOf (turnsOf dealings) ++ t.log = (historyOf (turnsOf dealings) ++ done) ++ e :: rest := by
    rw [Turn.log_of_accepted ha, hlog, List.append_assoc]
  obtain ⟨hc, he⟩ := hchronicle.grounded hsplit
  exact ⟨⟨hc, he.store, he.env⟩, he⟩

/-- What has happened happened at a moment that the evaluator has come to. -/
theorem lives_of_mem_history {e : Event} (h : e ∈ historyOf turns) :
    ∃ ν, Lives turns ν ∧ (e = .comes ν ∨ e ∈ ν.inside) := by
  induction turns with
  | nil => cases h
  | cons t turns ih =>
    rcases List.mem_append.mp h with h | h
    · obtain ⟨ν, hν, he⟩ := ih h
      exact ⟨ν, hν.mono (List.subset_cons_self t turns), he⟩
    · by_cases ha : t.Accepted
      · rw [Turn.log_of_accepted ha] at h
        obtain ⟨ν, hleads, he⟩ := Moment.leads_of_mem_log h
        exact ⟨ν, ⟨t, List.mem_cons_self, ha, hleads⟩, he⟩
      · rw [Turn.log_of_not_accepted ha] at h
        cases h

/-- The moments that the evaluator has come to are in the history, and so is what has happened at
    them. -/
theorem mem_history_of_lives {ν : Moment} (h : Lives turns ν) :
    .comes ν ∈ historyOf turns ∧ ∀ m deed, .does ν m deed ∈ ν.inside → .does ν m deed ∈ historyOf turns := by
  induction turns with
  | nil =>
    obtain ⟨t, ht, -⟩ := h
    cases ht
  | cons u turns ih =>
    obtain ⟨t, ht, ha, hleads⟩ := h
    rcases List.mem_cons.mp ht with rfl | ht
    · obtain ⟨hcomes, hdoes⟩ := Moment.mem_logTo_of_leads (Nat.le_refl _) hleads
      have hin : ∀ e ∈ t.opening.logTo t.opening.depth, e ∈ historyOf (t :: turns) := fun e he => by
        rw [historyOf, Turn.log_of_accepted ha]
        exact List.mem_append_right _ he
      exact ⟨hin _ hcomes, fun m deed hdeed => hin _ (hdoes m deed hdeed)⟩
    · obtain ⟨hcomes, hdoes⟩ := ih ⟨t, ht, ha, hleads⟩
      exact ⟨List.mem_append_left _ hcomes, fun m deed hdeed => List.mem_append_left _ (hdoes m deed hdeed)⟩

end Turns

end Lox
