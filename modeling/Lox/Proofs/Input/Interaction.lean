import Mathlib
import Lox.Console
import Lox.Proofs.Input.Asking
import Lox.Proofs.Runs.Fuel

/-!
  The interactive session.

  Two readers share the input: the session takes a line as its next submission, and a submission takes lines
  while it runs.  Nothing may be read twice and nothing may be skipped, whichever of them is next, and also
  where a program breaks off in the middle of its lines.

  1. **Calls** (`Errand.line?`, `Errand.printed`).  What each call of a host takes and prints, and from it what a
     series of calls does (`Relay.lines`, `Relay.output`).
  2. **Rounds** (`Round`, `Round.Takes`).  An interaction goes on in rounds, of one submission each.  A round
     takes its line and those for which it asks, and prints the prompt, what its program prints and its
     value (`Round.Takes.lines`, `Round.Takes.output`).  How the submission ends makes no difference to the
     next one: the flags are cleared (`Round.Regular`).
  3. **Runs of rounds** (`Rounds`).  By induction over the rounds: the lines that were there are those of the
     rounds, in their order, and those that are left (`Rounds.lines`).
  4. **The program** (`interact`).  Its report is that of such rounds (`rounds_of_interact`, by induction on the
     bound for the rounds), and there is one if and only if all submissions end (`exists_interact`,
     `submissionsEnd_of_interact`).  The bound is never reached, since each round takes a line at least.

  `interaction_takes_each_line_once` is about the command line without a file, for every input.
-/

namespace Lox

open Machine Text

/-! ## What calls take and print -/

namespace Errand

/-- The line that a call takes off the input, if it asks for one. -/
def line? (e : Errand) : Option (List UInt8) := (linesOf e.machine.host.input).head?

/-- What a call prints: the value that it is given, with the end of a line, or the front of that which the
    sink takes before it refuses. -/
def printed (e : Errand) : String :=
  match e.native with
  | .print =>
    let text := (e.given.headD .nil).printed ++ "\n"
    match e.machine.host.refusal? with
    | none => text
    | some refusal => refusal.front text
  | .clock | .input => ""

/-- What is printed comes behind what was printed before. -/
theorem output_print (host : Host) (text : String) : (host.print text).output = host.output ++ text := by
  rw [Host.output, Host.print, Array.toList_push, String.join_append, Host.output]
  rw [String.join_cons, String.join_nil, String.append_empty]

/-- **Behind a call its output has been printed**, be it all of a text or the front of one. -/
theorem output_behind (e : Errand) : e.behind.output = e.machine.host.output ++ e.printed := by
  rw [behind, printed]
  cases e.native with
  | clock => exact (String.append_empty).symm
  | input =>
    rw [nativeAnswer]
    split <;> exact (String.append_empty).symm
  | print =>
    rw [nativeAnswer]
    cases e.machine.host.refusal? with
    | none => exact output_print _ _
    | some refusal => exact output_print _ _

/-- Where the sink takes everything, only `input` can fail: on a line that is no text. -/
theorem broken_of_error {e : Errand} (hwhole : e.machine.host.sink = .whole) {error : RuntimeError}
    (h : e.result = .error error) : e.native = .input ∧ ∃ line, e.line? = some line ∧ ¬ Valid line := by
  cases hnative : e.native with
  | clock =>
    rw [result, hnative] at h
    cases h
  | print =>
    have htaken : e.machine.host.refusal? = none := by rw [Host.refusal?, hwhole]; rfl
    rw [result, hnative, nativeAnswer, htaken] at h
    cases h
  | input =>
    have hasked := asks hnative
    rw [h] at hasked
    generalize hline : (linesOf e.machine.host.input).head? = line? at hasked
    cases hasked with
    | broken hbroken => exact ⟨rfl, _, hline, hbroken⟩

/-- No call exchanges the sink. -/
theorem sink_behind (e : Errand) : e.behind.sink = e.machine.host.sink := by
  rw [behind]
  cases e.native with
  | clock => rfl
  | input =>
    rw [nativeAnswer]
    split <;> rfl
  | print =>
    rw [nativeAnswer]
    split <;> rfl

end Errand

namespace Relay

variable {host host' : Host} {es : List Errand}

/-- **The lines that are there are those that the calls take, and those that are left.** -/
theorem lines (h : Relay host es host') :
    linesOf host.input = (asksOf es).filterMap Errand.line? ++ linesOf host'.input := by
  induction h with
  | none => rfl
  | @errand e es host h ih =>
    by_cases hinput : e.native = .input
    · rw [Errand.linesOf_behind hinput] at ih
      rw [asksOf_cons hinput, List.filterMap_cons]
      -- Where no line is left a call of `input` takes none.
      cases hall : linesOf e.machine.host.input with
      | nil =>
        have hline : e.line? = .none := by rw [Errand.line?, hall]; rfl
        rw [hall] at ih
        rw [hline]
        exact ih
      | cons line lines =>
        have hline : e.line? = some line := by rw [Errand.line?, hall]; rfl
        rw [hall] at ih
        rw [hline]
        exact congrArg (List.cons line) ih
    · rw [asksOf_cons_of_ne hinput]
      rw [Errand.input_behind hinput] at ih
      exact ih

/-- What has been printed behind the calls is what was printed before, and what they print. -/
theorem output (h : Relay host es host') :
    host'.output = host.output ++ String.join (es.map Errand.printed) := by
  induction h with
  | none => exact (String.append_empty).symm
  | @errand e es host h ih =>
    rw [ih, Errand.output_behind, List.map_cons, String.join_cons, String.append_assoc]

/-- All calls print to the same sink. -/
theorem sink (h : Relay host es host') :
    host'.sink = host.sink ∧ ∀ e ∈ es, e.machine.host.sink = host.sink := by
  induction h with
  | none => exact ⟨rfl, nofun⟩
  | @errand e es host h ih =>
    rw [Errand.sink_behind] at ih
    exact ⟨ih.1, List.forall_mem_cons.mpr ⟨rfl, ih.2⟩⟩

end Relay

/-! ## Rounds -/

/-- The lines that the program of a turn has taken. -/
def Turn.taken (t : Turn) : List (List UInt8) := (asksOf t.errands).filterMap Errand.line?

namespace Console

/-- A line that is submitted, and how the submission is answered. -/
structure Round where
  line : List UInt8
  turn : Turn
  answer : Answered Verdict

/-- The value of a submission that has one, as it is shown. -/
def valueText : Verdict → String
  | .finished (some value) => value.printed ++ "\n"
  | _ => ""

namespace Round

/-- The session behind the round. -/
def next (r : Round) : Session := (echo r.answer.result r.answer.session).clearFlags

/-- The lines that the round takes: its own, and those for which its program asks. -/
def lines (r : Round) : List (List UInt8) := r.line :: r.turn.taken

/-- What the round prints: the prompt, what the program prints, and its value. -/
def output (r : Round) : String :=
  "> " ++ String.join (r.turn.errands.map Errand.printed) ++ valueText r.answer.result

/-- The round is the next one of the session. -/
structure Takes (s : Session) (r : Round) : Prop where
  line : (linesOf s.machine.host.input).head? = some r.line
  source : encode r.turn.source = r.line
  session : r.turn.session = dropLine (say "> " s)
  answered : r.turn.outcome? = some r.answer

end Round

/-- The rounds lead from one session to the other. -/
inductive Rounds : Session → List Round → Session → Prop where
  | none {s : Session} : Rounds s [] s
  | round {s s' : Session} {r : Round} {rs : List Round} : r.Takes s → Rounds r.next rs s' →
    Rounds s (r :: rs) s'

/-- Showing a value only prints it. -/
theorem host_echo (verdict : Verdict) (s : Session) :
    (echo verdict s).machine.host.input = s.machine.host.input ∧
    (echo verdict s).machine.host.sink = s.machine.host.sink ∧
    (echo verdict s).machine.host.output = s.machine.host.output ++ valueText verdict := by
  unfold echo
  split
  · exact ⟨rfl, rfl, Errand.output_print _ _⟩
  · rename_i hnone
    have hvalue : valueText verdict = "" := by
      unfold valueText
      split
      · exact absurd rfl (hnone _)
      · rfl
    rw [hvalue, String.append_empty]
    exact ⟨rfl, rfl, rfl⟩

namespace Round.Takes

variable {s : Session} {r : Round} (h : r.Takes s)
include h

/-- The calls of the round begin where its line has been taken, and lead to its answer. -/
theorem relay : Relay (s.machine.host.print "> ").skipLine r.turn.errands r.answer.session.machine.host := by
  have hrelay := (Turn.relay_of_outcome h.answered).1
  rw [h.session] at hrelay
  exact hrelay

/-- **The lines that are there are those of the round, and those that are left.** -/
theorem lines : linesOf s.machine.host.input = r.lines ++ linesOf r.next.machine.host.input := by
  have hleft : r.next.machine.host.input = r.answer.session.machine.host.input := (host_echo _ _).1
  have hskip : linesOf (s.machine.host.print "> ").skipLine.input = (linesOf s.machine.host.input).tail := by
    show linesOf (Host.splitLine s.machine.host.input).2 = _
    rw [splitLine_eq]
    exact (lined_linesOf _).tail
  have hlines := h.relay.lines
  rw [hskip] at hlines
  rw [hleft, Round.lines, Turn.taken, List.cons_append, ← hlines]
  exact (List.cons_head?_tail h.line).symm

/-- **Behind the round its output has been printed.** -/
theorem output : r.next.machine.host.output = s.machine.host.output ++ r.output := by
  have hvalue : r.next.machine.host.output = r.answer.session.machine.host.output ++ valueText r.answer.result :=
    (host_echo _ _).2.2
  have hprompt : (s.machine.host.print "> ").skipLine.output = s.machine.host.output ++ "> " :=
    Errand.output_print _ _
  rw [hvalue, h.relay.output, hprompt, Round.output]
  simp only [String.append_assoc]

/-- The calls of a round print to the sink of its session, and so do those of the next. -/
theorem sink : r.next.machine.host.sink = s.machine.host.sink ∧
    ∀ e ∈ r.turn.errands, e.machine.host.sink = s.machine.host.sink := by
  have hsink := h.relay.sink
  have hnext : r.next.machine.host.sink = r.answer.session.machine.host.sink := (host_echo _ _).2.1
  exact ⟨hnext.trans hsink.1, hsink.2⟩

end Round.Takes

/-- How a round goes. -/
structure Round.Regular (r : Round) : Prop where
  source : encode r.turn.source = r.line
  answered : r.turn.outcome? = some r.answer
  /-- No error of an earlier round has left anything behind. -/
  fresh : r.turn.session.anyRejected = false ∧ r.turn.session.anyAborted = false
  /-- What the program asks for is given to it. -/
  asked : ∀ e ∈ r.turn.errands, e.native = .input → Asked e.token e.line? e.result
  /-- A line that is no text ends the submission with an error. -/
  broken : ∀ e ∈ r.turn.errands, e.native = .input → ∀ line, e.line? = some line → ¬ Valid line →
    r.turn.errands.getLast? = some e ∧ r.answer.result = .aborted ⟨e.token, .unreadableInput⟩
  /-- No other call fails. -/
  unbroken : ∀ e ∈ r.turn.errands, (e.native = .input → ∀ line, e.line? = some line → Valid line) →
    ∃ v, e.result = .ok v

/-- **A round goes as it should**, if no error was left before and the sink takes everything. -/
theorem Round.Takes.regular {s : Session} {r : Round} (h : r.Takes s)
    (hflags : s.anyRejected = false ∧ s.anyAborted = false) (hwhole : s.machine.host.sink = .whole) :
    r.Regular where
  source := h.source
  answered := h.answered
  fresh := by
    rw [h.session]
    exact hflags
  asked _ _ hinput := Errand.asks hinput
  broken e he hinput line hline hbroken := by
    have herror := (Errand.asks hinput).result_broken hline hbroken
    -- A call either is answered, or fails as the last one and ends the submission.
    rcases (Turn.relay_of_outcome h.answered).2 e he with ⟨v, hv⟩ | ⟨error, hlast, herror', haborted⟩
    · rw [hv] at herror
      cases herror
    · rw [herror'] at herror
      cases herror
      exact ⟨hlast, haborted⟩
  unbroken e he hvalid := by
    cases hresult : e.result with
    | ok v => exact ⟨v, rfl⟩
    | error error =>
      have hewhole : e.machine.host.sink = .whole := (h.sink.2 e he).trans hwhole
      obtain ⟨hinput, line, hline, hbroken⟩ := Errand.broken_of_error hewhole hresult
      exact absurd (hvalid hinput line hline) hbroken

namespace Rounds

variable {s s' : Session} {rs : List Round}

/-- **The lines that are there are those of the rounds, in their order, and those that are left.** -/
theorem lines (h : Rounds s rs s') :
    linesOf s.machine.host.input = rs.flatMap Round.lines ++ linesOf s'.machine.host.input := by
  induction h with
  | none => rfl
  | round htakes _ ih => rw [htakes.lines, ih, List.flatMap_cons, List.append_assoc]

/-- Behind the rounds their outputs have been printed, one after the other. -/
theorem output (h : Rounds s rs s') :
    s'.machine.host.output = s.machine.host.output ++ String.join (rs.map Round.output) := by
  induction h with
  | none => exact (String.append_empty).symm
  | round htakes _ ih => rw [ih, htakes.output, List.map_cons, String.join_cons, String.append_assoc]

/-- **All rounds go as they should**, since each begins like the first one. -/
theorem regular (h : Rounds s rs s') (hflags : s.anyRejected = false ∧ s.anyAborted = false)
    (hwhole : s.machine.host.sink = .whole) : ∀ r ∈ rs, r.Regular := by
  induction h with
  | none => exact fun _ h => absurd h List.not_mem_nil
  | round htakes _ ih =>
    have hnext := ih ⟨rfl, rfl⟩ (htakes.sink.1.trans hwhole)
    exact List.forall_mem_cons.mpr ⟨htakes.regular hflags hwhole, hnext⟩

end Rounds

/-! ## Running in rounds

  The program as it is written goes through the rounds that have been described, no matter how they came about. -/

/-- How a session ends of which so much has been reported: at the end of the input, or at a line that is no
    text. -/
inductive Ends (s : Session) (stderr : String) : Report → Prop where
  | finished : linesOf s.machine.host.input = [] →
    Ends s stderr ⟨s.machine.host.output ++ "> \n", stderr, 0, false⟩
  | broken {line : List UInt8} : (linesOf s.machine.host.input).head? = some line → ¬ Valid line →
    Ends s stderr ⟨s.machine.host.output ++ "> ", stderr ++ ConsoleFault.brokenLine.text, 1, false⟩

section Interact

variable {fuel n : Nat} {stderr : String} {s : Session} {line : List UInt8} {rest : List (List UInt8)}

/-- Where the input is over the session ends. -/
theorem interact_over (h : linesOf s.machine.host.input = []) : interact fuel (n + 1) stderr s =
    some ⟨s.machine.host.output ++ "> \n", stderr, 0, false⟩ := by
  have hsplit : (Host.splitLine (say "> " s).machine.host.input).1 = [] := by
    show (Host.splitLine s.machine.host.input).1 = []
    rw [splitLine_eq, h]
    rfl
  have houtput : (say "\n" (say "> " s)).machine.host.output = s.machine.host.output ++ "> \n" := by
    show ((s.machine.host.print "> ").print "\n").output = _
    rw [Errand.output_print, Errand.output_print, String.append_assoc]
    rfl
  rw [interact, hsplit, houtput]

/-- A line that is text is submitted, and the session goes on behind it; one that is no text ends it. -/
theorem interact_line (h : linesOf s.machine.host.input = line :: rest) : interact fuel (n + 1) stderr s =
    match decode line with
    | .error _ => some (failure (s.machine.host.output ++ "> ") stderr .brokenLine)
    | .ok source =>
      match Turn.outcome? ⟨dropLine (say "> " s), fuel, source⟩ with
      | none => none
      | some answer => interact fuel n (stderr ++ diagnosticsText answer.diagnostics)
        (Round.next ⟨line, ⟨dropLine (say "> " s), fuel, source⟩, answer⟩) := by
  have hsplit : (Host.splitLine (say "> " s).machine.host.input).1 = line := by
    show (Host.splitLine s.machine.host.input).1 = line
    rw [splitLine_eq, h]
    rfl
  have houtput : (say "> " s).machine.host.output = s.machine.host.output ++ "> " := Errand.output_print _ _
  obtain ⟨b, bytes, hline⟩ : ∃ b bytes, line = b :: bytes :=
    List.exists_cons_of_ne_nil (ne_nil_of_mem_linesOf (h ▸ List.mem_cons_self))
  rw [interact, hsplit, houtput, hline]
  rfl

/-- The round in which a line is submitted. -/
theorem takes_line (h : linesOf s.machine.host.input = line :: rest) {source : String}
    (hsource : encode source = line) {answer : Answered Verdict}
    (hanswer : Turn.outcome? ⟨dropLine (say "> " s), fuel, source⟩ = some answer) :
    Round.Takes s ⟨line, ⟨dropLine (say "> " s), fuel, source⟩, answer⟩ where
  line := congrArg List.head? h
  source := hsource
  session := rfl
  answered := hanswer

/-- **The report of an interactive session is that of rounds**, after which it ends. -/
theorem rounds_of_interact {r : Report} (h : interact fuel n stderr s = some r) :
    ∃ rs last, Rounds s rs last ∧
      Ends last (stderr ++ String.join (rs.map fun r => diagnosticsText r.answer.diagnostics)) r := by
  induction n generalizing stderr s with
  | zero => cases h
  | succ n ih =>
    cases hlines : linesOf s.machine.host.input with
    | nil =>
      rw [interact_over hlines] at h
      cases h
      refine ⟨[], s, .none, ?_⟩
      rw [List.map_nil, String.join_nil, String.append_empty]
      exact .finished hlines
    | cons line rest =>
      rw [interact_line hlines] at h
      cases hdecode : decode line with
      | error fault =>
        rw [hdecode] at h
        cases h
        -- The session itself has met a line that is no text.
        have hbroken : ¬ Valid line := by
          rintro ⟨text, htext⟩
          rw [decode_eq_ok_iff.mpr htext] at hdecode
          cases hdecode
        refine ⟨[], s, .none, ?_⟩
        rw [List.map_nil, String.join_nil, String.append_empty]
        exact .broken (congrArg List.head? hlines) hbroken
      | ok source =>
        rw [hdecode] at h
        dsimp only at h
        cases hanswer : Turn.outcome? ⟨dropLine (say "> " s), fuel, source⟩ with
        | none =>
          rw [hanswer] at h
          cases h
        | some answer =>
          rw [hanswer] at h
          obtain ⟨rs, last, hrounds, hends⟩ := ih h
          refine ⟨_ :: rs, last, .round (takes_line hlines (decode_eq_ok_iff.mp hdecode) hanswer) hrounds, ?_⟩
          rw [List.map_cons, String.join_cons, ← String.append_assoc]
          exact hends

/-- Every submission to which rounds lead ends, with enough fuel. -/
def SubmissionsEnd (s : Session) : Prop :=
  ∀ rs s', Rounds s rs s' → ∀ source, (linesOf s'.machine.host.input).head? = some (encode source) →
    ∃ fuel, (Turn.outcome? ⟨dropLine (say "> " s'), fuel, source⟩).isSome

/-- If all submissions end, the session ends with enough fuel, and any more makes no difference. -/
theorem exists_interact (stderr : String) (h : SubmissionsEnd s)
    (hn : (linesOf s.machine.host.input).length < n) :
    ∃ fuel r, ∀ fuel', fuel ≤ fuel' → interact fuel' n stderr s = some r := by
  induction n generalizing stderr s with
  | zero => omega
  | succ n ih =>
    cases hlines : linesOf s.machine.host.input with
    | nil => exact ⟨0, _, fun fuel' _ => interact_over hlines⟩
    | cons line rest =>
      cases hdecode : decode line with
      | error fault =>
        refine ⟨0, failure (s.machine.host.output ++ "> ") stderr .brokenLine, ?_⟩
        intro fuel' _
        rw [interact_line hlines, hdecode]
      | ok source =>
        have hsource : encode source = line := decode_eq_ok_iff.mp hdecode
        obtain ⟨fuel₁, hfuel₁⟩ := h [] s .none source (by rw [hlines, hsource]; rfl)
        obtain ⟨answer, hanswer⟩ := Option.isSome_iff_exists.mp hfuel₁
        have htakes := takes_line hlines hsource hanswer
        have hrest : SubmissionsEnd (Round.next ⟨line, ⟨dropLine (say "> " s), fuel₁, source⟩, answer⟩) :=
          fun rs s' hrounds => h (_ :: rs) s' (.round htakes hrounds)
        -- The round has taken a line, so there are fewer left than the bound allows.
        have hfewer := congrArg List.length htakes.lines
        rw [Round.lines, List.cons_append, List.length_cons, List.length_append] at hfewer
        obtain ⟨fuel₂, r, hr⟩ := ih (stderr ++ diagnosticsText answer.diagnostics) hrest (by omega)
        -- The first submission may need more fuel than all others, or less.
        refine ⟨max fuel₁ fuel₂, r, ?_⟩
        intro fuel' hle
        have hmore := Turn.outcome_of_le hanswer (Nat.le_trans (Nat.le_max_left fuel₁ fuel₂) hle)
        rw [interact_line hlines, hdecode]
        dsimp only at hmore ⊢
        rw [hmore]
        exact hr fuel' (by omega)

/-- If the session ends, so do all submissions. -/
theorem submissionsEnd_of_interact {r : Report} (h : interact fuel n stderr s = some r) : SubmissionsEnd s := by
  intro rs s' hrounds source hsource
  induction hrounds generalizing n stderr with
  | @none s =>
    obtain ⟨rest, hlines⟩ := List.head?_eq_some_iff.mp hsource
    cases n with
    | zero => cases h
    | succ n =>
      rw [interact_line hlines, decode_eq_ok_iff.mpr rfl] at h
      refine ⟨fuel, ?_⟩
      cases hanswer : Turn.outcome? ⟨dropLine (say "> " s), fuel, source⟩ with
      | none =>
        dsimp only at h
        rw [hanswer] at h
        cases h
      | some answer => rfl
  | @round s s' round rs htakes _ ih =>
    obtain ⟨rest, hlines⟩ := List.head?_eq_some_iff.mp htakes.line
    cases n with
    | zero => cases h
    | succ n =>
      rw [interact_line hlines, decode_eq_ok_iff.mpr htakes.source] at h
      dsimp only at h
      cases hanswer : Turn.outcome? ⟨dropLine (say "> " s), fuel, round.turn.source⟩ with
      | none =>
        rw [hanswer] at h
        cases h
      | some answer =>
        rw [hanswer] at h
        -- The round was answered with some fuel, and here with that of the session.
        have hsame : round.answer = answer := by
          apply Turn.outcome_unique htakes.answered (n := fuel)
          rw [htakes.session]
          exact hanswer
        have hnext : interact fuel n (stderr ++ diagnosticsText answer.diagnostics) round.next = some r := by
          rw [show round.next = (echo answer.result answer.session).clearFlags by rw [Round.next, hsame]]
          exact h
        exact ih hnext hsource

end Interact

/-- A host of which nothing has been read yet, to which nothing has been printed, and which takes everything. -/
def terminal (stdin : List UInt8) (clock : Nat → Int) : Host := ⟨stdin, #[], .whole, clock, 0⟩

/-- What an interactive session reports, and the rounds in which it has taken the lines of its input. -/
structure Interacts (host : Host) (rounds : List Round) (last : Session) (r : Report) : Prop where
  leads : Rounds (.start true host) rounds last
  regular : ∀ round ∈ rounds, round.Regular
  /-- Each line is taken once, by a round or by the program of one; those behind a broken one are left. -/
  lines : linesOf host.input = rounds.flatMap Round.lines ++ linesOf last.machine.host.input
  ended : linesOf last.machine.host.input = [] ∧ r.code = 0 ∧
      r.stdout = String.join (rounds.map Round.output) ++ "> \n" ∧
      r.stderr = String.join (rounds.map fun round => diagnosticsText round.answer.diagnostics) ∨
    (∃ line, (linesOf last.machine.host.input).head? = some line ∧ ¬ Valid line) ∧ r.code = 1 ∧
      r.stdout = String.join (rounds.map Round.output) ++ "> " ∧
      r.stderr = String.join (rounds.map fun round => diagnosticsText round.answer.diagnostics) ++
        ConsoleFault.brokenLine.text
  /-- Where all lines are text, none is left. -/
  whole : (∀ line ∈ linesOf host.input, Valid line) →
    r.code = 0 ∧ linesOf host.input = rounds.flatMap Round.lines

/-- The report of an interactive session is that of regular rounds, and says how the last one was followed. -/
theorem interacts_of_interact {fuel n : Nat} {stdin : List UInt8} {clock : Nat → Int} {r : Report}
    (h : interact fuel n "" (.start true (terminal stdin clock)) = some r) (log : Bool) :
    ∃ rounds last, Interacts (terminal stdin clock) rounds last { r with log := log } := by
  obtain ⟨rounds, last, hrounds, hends⟩ := rounds_of_interact h
  have hlines := hrounds.lines
  have houtput : last.machine.host.output = String.join (rounds.map Round.output) := by
    rw [hrounds.output]
    exact String.empty_append
  rw [String.empty_append] at hends
  refine ⟨rounds, last, hrounds, hrounds.regular ⟨rfl, rfl⟩ rfl, hlines, ?_, ?_⟩
  · cases hends with
    | finished hover => exact .inl ⟨hover, rfl, by rw [houtput], rfl⟩
    | broken hline hbroken => exact .inr ⟨⟨_, hline, hbroken⟩, rfl, by rw [houtput], rfl⟩
  · intro hvalid
    cases hends with
    | finished hover =>
      rw [hover, List.append_nil] at hlines
      exact ⟨rfl, hlines⟩
    | @broken line hline hbroken =>
      -- The broken line is one of the input, behind those of the rounds.
      refine absurd (hvalid line ?_) hbroken
      show line ∈ linesOf (Session.start true (terminal stdin clock)).machine.host.input
      rw [hlines]
      exact List.mem_append_right _ (List.mem_of_head? hline)

/-- Running without a file is interacting. -/
theorem carryOut_interactive (numberText : Float → String) (fuel : Nat)
    (read : String → Except FileFault (List UInt8)) (host : Host) (log : Bool) :
    carryOut numberText fuel read host ⟨.run, none, log⟩ =
      (interact fuel (host.input.length + 1) "" (.start true host)).map ({ · with log := log }) := rfl

end Console

open Console in
/-- **An interactive session takes each line of its input once**, as a submission or for a program that asks
    for it, and no error of a program ends it.  It ends at the end of the input, with exit code 0, or at a line
    that is no text and that no program has asked for, with exit code 1; and it ends if and only if all
    submissions do. -/
theorem interaction_takes_each_line_once (numberText : Float → String)
    (read : String → Except FileFault (List UInt8)) (log : Bool) (stdin : List UInt8) (clock : Nat → Int) :
    (∀ fuel r, carryOut numberText fuel read (terminal stdin clock) ⟨.run, none, log⟩ = some r →
      SubmissionsEnd (.start true (terminal stdin clock)) ∧
      ∃ rounds last, Interacts (terminal stdin clock) rounds last r) ∧
    (SubmissionsEnd (.start true (terminal stdin clock)) →
      ∃ fuel r, ∀ fuel', fuel ≤ fuel' →
        carryOut numberText fuel' read (terminal stdin clock) ⟨.run, none, log⟩ = some r) := by
  constructor
  · intro fuel r hr
    rw [carryOut_interactive] at hr
    obtain ⟨r', hr', rfl⟩ := Option.map_eq_some_iff.mp hr
    exact ⟨submissionsEnd_of_interact hr', interacts_of_interact hr' log⟩
  · intro hend
    -- There are no more lines than bytes, so the bound on the rounds is never reached.
    have hlength := Nat.lt_succ_of_le (length_linesOf_le stdin)
    obtain ⟨fuel, r, hr⟩ := exists_interact "" hend hlength
    refine ⟨fuel, { r with log := log }, ?_⟩
    intro fuel' hle
    rw [carryOut_interactive]
    exact congrArg _ (hr fuel' hle)

namespace BrokenAnswer

/-- The line of a program that asks for the next one. -/
def line : List UInt8 := [105, 110, 112, 117, 116, 40, 41, 10]

/-- A byte that is no text follows on it. -/
def stdin : List UInt8 := line ++ [255]

/-- The round in which the line is submitted. -/
def turn : Turn :=
  ⟨Console.dropLine (Console.say "> " (.start true (Console.terminal stdin fun _ => 0))), 9, "input()\n"⟩

/-- The error with which the program ends. -/
def error : RuntimeError := ⟨⟨.mark .rightParen, ")", 1⟩, .unreadableInput⟩

/-- The line is text. -/
theorem decode_line : Text.decode line = .ok "input()\n" := by cbv

/-- The program ends with the error, behind a line that has been taken. -/
theorem ends : turn.outcome?.map (fun answer => (answer.diagnostics,
    (Console.Round.next ⟨line, turn, answer⟩).machine.host.input,
    (Console.Round.next ⟨line, turn, answer⟩).machine.host.output)) = some ([.runtime error], [], "> ") := by
  cbv

/-- The session ends at the end of its input, with exit code zero. -/
theorem reports : Console.carryOut Number.json 9 (fun _ => .ok []) (Console.terminal stdin fun _ => 0)
    ⟨.run, none, false⟩ = some ⟨"> > \n", Console.diagnosticsText [.runtime error], 0, false⟩ := by
  obtain ⟨answer, hanswer, hends⟩ := Option.map_eq_some_iff.mp ends
  obtain ⟨hdiagnostics, hrest⟩ := Prod.ext_iff.mp hends
  obtain ⟨hinput, houtput⟩ := Prod.ext_iff.mp hrest
  dsimp only at hdiagnostics hinput houtput
  -- Two lines: the program, and the byte that it asks for.
  have hlines : linesOf (Session.start true (Console.terminal stdin fun _ => 0)).machine.host.input =
      [line, [255]] := by decide
  have hover : linesOf (Console.Round.next ⟨line, turn, answer⟩).machine.host.input = [] := by
    rw [hinput]
    rfl
  have hanswer' : Turn.outcome? ⟨Console.dropLine (Console.say "> "
      (.start true (Console.terminal stdin fun _ => 0))), 9, "input()\n"⟩ = some answer := hanswer
  rw [Console.carryOut_interactive, Console.interact_line hlines, decode_line]
  dsimp only
  rw [hanswer']
  dsimp only
  have hrest : Console.interact 9 (Console.terminal stdin fun _ => 0).input.length
      ("" ++ Console.diagnosticsText answer.diagnostics) (Console.Round.next ⟨line, turn, answer⟩) =
      some ⟨"> > \n", Console.diagnosticsText [.runtime error], 0, false⟩ := by
    have hlength : (Console.terminal stdin fun _ => 0).input.length = 8 + 1 := by decide
    rw [hlength, Console.interact_over hover, houtput, hdiagnostics, String.empty_append,
      show "> " ++ "> \n" = "> > \n" by decide]
  exact congrArg (Option.map _) hrest

end BrokenAnswer

open BrokenAnswer in
/-- A program asks for a line that is no text, and the session goes on to the end of its input. -/
theorem interaction_takes_each_line_once_broken : ∃ rounds last,
    Console.Interacts (Console.terminal stdin fun _ => 0) rounds last
      ⟨"> > \n", Console.diagnosticsText [.runtime error], 0, false⟩ :=
  ((interaction_takes_each_line_once Number.json _ _ _ _).1 9 _ reports).2

end Lox
