import Mathlib
import Lox.Console
import Lox.Proofs.Grammar.Progress
import Lox.Proofs.Histories.Turns
import Lox.Proofs.Printing.Drawing
import Lox.Proofs.Runs.Dealings
import Lox.Proofs.Runs.Kept
import Lox.Proofs.Scope.Spots

/-!
  How submissions end, and what tells of it.

  A session has several ways to tell how a submission went: the verdict that is given back, the diagnostics
  that are reported, two flags that are kept until they are cleared, and on the command line the exit code
  and what is printed.  They always agree (`outcomes_agree`).

  1. **Stages** (`Stage`).  A diagnostic is made where characters, tokens or names are looked at, or while the
     program runs.  Productions report faults of tokens only, and fail with no others (`ofTokens_closed`,
     one case for each way to build a production), so `parse_stage` holds of every source.
  2. **Verdicts** (`Turn.Accounts`).  A rejected submission is one about which reading or matching reports
     something, and it changes no variable and prints nothing (`Turn.Rejects`).  An aborted one is reported
     with the error that ended it, and all that was there up to then is kept (`Turn.Aborts`).  About any other
     nothing is reported (`Turn.Finishes`).
  3. **Flags** (`Session.flags_kept`).  Only one request takes them back.
  4. **The command line** (`Console.Runs`, `Console.Shows`).  Running a file exits with 65, 70 or 0.  Showing
     its tokens prints a line for each (`Listed`), showing its statements a tree for each (`ShowsProgram`);
     both are relations of their own, which say what has to stand in a line and not how it is made.
-/

namespace Lox

/-! ## What is reported at each stage -/

/-- What is done to a program, in this order. -/
inductive Stage where
  | characters | tokens | names | running
  deriving DecidableEq

/-- The stage at which the diagnostic is made. -/
def Diagnostic.stage : Diagnostic → Stage
  | lexical _ _ => .characters
  | syntactic _ _ => .tokens
  | scoping _ _ => .names
  | runtime _ => .running

/-- What scanning reports are faults of characters. -/
theorem lexicalDiagnostics_stage {items : List Item} {d : Diagnostic} (h : d ∈ lexicalDiagnostics items) :
    d.stage = .characters := by
  obtain ⟨⟨line, fault⟩, -, rfl⟩ := List.mem_map.mp h
  rfl

namespace Grammar

/-- All that has been reported is about tokens. -/
def Cursor.Reading (c : Cursor) : Prop := ∀ d ∈ c.problems, d.stage = .tokens

/-- A report about a token is one more of the kind. -/
theorem Cursor.Reading.report {c : Cursor} (h : c.Reading) {d : Diagnostic} (hd : d.stage = .tokens) :
    (c.report d).Reading := by
  intro d' hd'
  rcases Array.mem_push.mp hd' with hd' | rfl
  · exact h d' hd'
  · exact hd

/-- The production has reported faults of tokens only, however it ended, and failed with no other. -/
inductive EndsReading {α : Type} : Ending Cursor Diagnostic α → Prop where
  | done {a d} : d.Reading → EndsReading (.done a d)
  | failed {problem d} : problem.stage = .tokens → d.Reading → EndsReading (.failed problem d)
  | exhausted : EndsReading .exhausted

/-- The production reports, and fails with, faults of tokens only. -/
def OfTokens {α : Type} (p : Production α) : Prop := ∀ c, c.Reading → EndsReading (p c)

/-- All productions do. -/
theorem ofTokens_closed : Closed @OfTokens where
  pure _ _ h := .done h
  bind := by
    intro α β x f hx hf c h
    have hxc := hx c h
    cases hrun : x c with
    | done a d =>
      rw [Action.bind_of_done hrun]
      rw [hrun] at hxc
      cases hxc with
      | done hd => exact hf a d hd
    | failed problem d =>
      rw [Action.bind_of_failed hrun]
      rw [hrun] at hxc
      cases hxc with
      | failed hproblem hd => exact .failed hproblem hd
    | exhausted =>
      rw [Action.bind_of_exhausted hrun]
      exact .exhausted
  acceptWhere := by
    intro fits c h
    rw [acceptWhere]
    split
    · split <;> exact .done h
    · exact .done h
  read _ _ h := .done h
  report _ _ _ h := .done (h.report rfl)
  failHere _ _ h := .failed rfl h
  freshRef _ _ h := .done h
  withLoops := by
    intro α depth x hx c h
    -- The reports do not depend on how deep in loops the production is.
    have inner := hx { c with loopDepth := depth c.loopDepth } h
    simp only [withLoops, Action.keeping, bind, Action.update]
    generalize x { c with loopDepth := depth c.loopDepth } = ending at inner
    cases inner with
    | done hd => exact .done hd
    | failed hproblem hd => exact .failed hproblem hd
    | exhausted => exact .exhausted
  outOfFuel _ _ := .exhausted
  recover := by
    intro α x hx c h
    have inner := hx c h
    simp only [Action.recover, Functor.map]
    generalize x c = ending at inner
    cases inner with
    | done hd => exact .done hd
    | failed hproblem hd =>
      refine .done ?_
      -- The failure becomes a report, and synchronizing adds none.
      have hreport := hd.report hproblem
      dsimp only
      split <;> exact hreport
    | exhausted => exact .exhausted

/-- **What is reported of the tokens of a program are faults of tokens.** -/
theorem parse_stage {tokens : List Token} {interactive : Bool} {firstId : Nat} {d : Diagnostic}
    (h : d ∈ (parse tokens interactive firstId).diagnostics) : d.stage = .tokens := by
  have hstart : (Cursor.start tokens interactive firstId).Reading := fun d hd => by
    simp [Cursor.start] at hd
  have hends := (ofTokens_closed.rules
    (enoughFuel (Cursor.start tokens interactive firstId).ahead.length)).declarations false _ hstart
  rw [parse] at h
  generalize declarations _ false (Cursor.start tokens interactive firstId) = ending at h hends
  cases hends with
  | done hd => exact hd d (Array.mem_toList_iff.mp h)
  | failed hproblem hd => exact hd.report hproblem d (Array.mem_toList_iff.mp h)
  | exhausted => cases h

end Grammar

/-! ## Turns -/

namespace Turn

/-- The diagnostics of a source, or else those of the names of its program. -/
def diagnostics (t : Turn) : List Diagnostic :=
  if t.parsed.diagnostics = [] then t.resolved.diagnostics else t.parsed.diagnostics

/-- The submission is rejected for so many faults: at least one.  They are reported, those of characters
    before those of tokens, and those of names only where there are no others; and nothing runs. -/
structure Rejects (t : Turn) (faults : Nat) (answer : Answered Verdict) : Prop where
  refused : ¬ t.Accepted
  count : answer.diagnostics.length = faults
  pos : 0 < faults
  reported : answer.diagnostics = t.diagnostics
  ordered : (∃ lexical syntactic, answer.diagnostics = lexical ++ syntactic ∧
      (∀ d ∈ lexical, d.stage = .characters) ∧ ∀ d ∈ syntactic, d.stage = .tokens) ∨
    t.parsed.diagnostics = [] ∧ ∀ d ∈ answer.diagnostics, d.stage = .names
  store : answer.session.machine.store = t.session.machine.store
  env : answer.session.machine.env = t.session.machine.env
  host : answer.session.machine.host = t.session.machine.host
  rejected : answer.session.anyRejected = true
  aborted : answer.session.anyAborted = t.session.anyAborted

/-- An error ends the submission.  It alone is reported, with its token and its message.  The machine is
    left as it was at the error, but that the globals are current again; what was there at any moment of the
    run is still there. -/
structure Aborts (t : Turn) (error : RuntimeError) (answer : Answered Verdict) : Prop where
  accepted : t.Accepted
  reported : ∃ d, answer.diagnostics = [d] ∧ d.token? = some error.token ∧ d.message = error.message
  machine : ∃ m, Eval.runAll t.fuel t.parsed.program none t.machine = .failed error m ∧
    answer.session.machine = { m with env := .global }
  kept : ∀ μ, t.opening.Leads μ → μ.machine.Kept answer.session.machine
  written : ∀ {interactive host dealings}, (Session.start interactive host).History dealings t.session →
    answer.session.machine.store = replay (historyOf (turnsOf dealings) ++ t.log)
  rejected : answer.session.anyRejected = t.session.anyRejected
  aborted : answer.session.anyAborted = true

/-- The submission comes to its end, and nothing is reported. -/
structure Finishes (t : Turn) (value : Option Value) (answer : Answered Verdict) : Prop where
  accepted : t.Accepted
  reported : answer.diagnostics = []
  machine : Eval.runAll t.fuel t.parsed.program none t.machine = .done value answer.session.machine
  rejected : answer.session.anyRejected = t.session.anyRejected
  aborted : answer.session.anyAborted = t.session.anyAborted

/-- The submission ended as the answer says. -/
def Accounts (t : Turn) (answer : Answered Verdict) : Prop :=
  match answer.result with
  | .rejected faults => t.Rejects faults answer
  | .aborted error => t.Aborts error answer
  | .finished value => t.Finishes value answer

/-- What reading reports comes in two parts: first characters, then tokens. -/
theorem parsed_ordered (t : Turn) : ∃ lexical syntactic, t.parsed.diagnostics = lexical ++ syntactic ∧
    (∀ d ∈ lexical, d.stage = .characters) ∧ ∀ d ∈ syntactic, d.stage = .tokens :=
  ⟨_, _, rfl, fun _ => lexicalDiagnostics_stage, fun _ => Grammar.parse_stage⟩

/-- What matching reports are faults of names. -/
theorem resolved_stage {t : Turn} : ∀ d ∈ t.resolved.diagnostics, d.stage = .names := by
  intro d hd
  obtain ⟨token, fault, rfl⟩ := resolve_reports d hd
  rfl

/-- **The answer to a submission says how it ended.** -/
theorem accounts_of_outcome {t : Turn} {answer : Answered Verdict} (h : t.outcome? = some answer) :
    t.Accounts answer := by
  -- How a rejected submission leaves the session can be read off its answer.
  cases t.ends_of_outcome h with
  | unread hread =>
    exact {
      refused := fun ha => hread ha.read
      count := rfl
      pos := List.length_pos_iff.mpr hread
      reported := (if_neg hread).symm
      ordered := .inl t.parsed_ordered
      store := rfl
      env := rfl
      host := rfl
      rejected := rfl
      aborted := rfl }
  | unmatched hread hmatched =>
    exact {
      refused := fun ha => hmatched ha.matched
      count := rfl
      pos := List.length_pos_iff.mpr hmatched
      reported := (if_pos hread).symm
      ordered := .inr ⟨hread, resolved_stage⟩
      store := rfl
      env := rfl
      host := rfl
      rejected := rfl
      aborted := rfl }
  | done ha hrun => exact ⟨ha, rfl, hrun, rfl, rfl⟩
  | @failed error m ha hrun =>
    exact {
      accepted := ha
      reported := ⟨_, rfl, rfl, rfl⟩
      machine := ⟨m, hrun, rfl⟩
      kept := fun μ hμ => by
        -- Behind the error only the current frame is set back.
        have hkept := Moment.kept_of_leads hμ (show (t.opening.run t.opening.machine).state? = some m from
          congrArg Ending.state? hrun)
        exact ⟨hkept.printed, hkept.store⟩
      written := fun hhistory => by
        have hturn := ((reached_of_history hhistory).turn ha).2
        rw [hrun] at hturn
        exact hturn
      rejected := rfl
      aborted := rfl }

/-- A submission about which something is reported is answered, with whatever fuel. -/
theorem outcome_of_refused {t : Turn} (h : ¬ t.Accepted) : t.outcome?.isSome := by
  by_cases hread : t.parsed.diagnostics = []
  · rw [outcome_unmatched hread fun hmatched => h ⟨hread, hmatched⟩]
    rfl
  · rw [outcome_unread hread]
    rfl

end Turn

/-! ## Flags -/

/-- **No request but the one to clear them takes a flag back.** -/
theorem Session.flags_kept {s s' : Session} {request : Request} (h : s.serve request = some s')
    (hrequest : request ≠ .clearFlags) :
    (s.anyRejected = true → s'.anyRejected = true) ∧ (s.anyAborted = true → s'.anyAborted = true) := by
  cases request with
  | tokenize source | parse source =>
    cases h
    exact ⟨fun hs => Bool.or_eq_true_iff.mpr (.inl hs), id⟩
  | run fuel source =>
    obtain ⟨answer, hanswer, rfl⟩ := Option.map_eq_some_iff.mp h
    -- Each verdict says which flag it sets, and that it leaves the other.
    have haccounts := Turn.accounts_of_outcome (t := ⟨s, fuel, source⟩) hanswer
    unfold Turn.Accounts at haccounts
    split at haccounts
    · exact ⟨fun _ => haccounts.rejected, fun hs => haccounts.aborted.trans hs⟩
    · exact ⟨fun hs => haccounts.rejected.trans hs, fun _ => haccounts.aborted⟩
    · exact ⟨fun hs => haccounts.rejected.trans hs, fun hs => haccounts.aborted.trans hs⟩
  | clearFlags => exact absurd rfl hrequest

/-! ## The command line -/

namespace Console

/-- The command is for a task on a file, which can be read and holds this source. -/
structure Asks (command : Command) (read : String → Except FileFault (List UInt8)) (task : Task)
    (source : String) : Prop where
  task : command.task = task
  file : ∃ file bytes, command.file = some file ∧ read file = .ok bytes ∧ Text.decode bytes = .ok source

variable {command : Command} {read : String → Except FileFault (List UInt8)} {task : Task} {source : String}

/-- Such a command is carried out on the source. -/
theorem Asks.carryOut (h : Asks command read task source) (numberText : Float → String) (fuel : Nat)
    (host : Host) : Console.carryOut numberText fuel read host command =
      (onSource numberText fuel host task source).map ({ · with log := command.log }) := by
  obtain ⟨file, bytes, hfile, hread, hdecode⟩ := h.file
  have hsource : sourceOf read file = .ok source := by
    rw [sourceOf, hread]
    exact congrArg (Except.mapError _) hdecode
  rw [Console.carryOut, h.task, hfile]
  cases task <;> simp only [perform, hsource]

/-- The report of a command that shows something about a program. -/
structure Shows (shown : String → Prop) (diagnostics : List Diagnostic) (r : Report) : Prop where
  stdout : shown r.stdout
  stderr : r.stderr = diagnosticsText diagnostics
  code : r.code = if diagnostics = [] then 0 else 65

/-- The report of a command that runs a program: the exit code tells how it ended. -/
structure Runs (t : Turn) (r : Report) (answer : Answered Verdict) : Prop where
  answered : t.outcome? = some answer
  accounts : t.Accounts answer
  stdout : r.stdout = answer.session.machine.host.output
  stderr : r.stderr = diagnosticsText answer.diagnostics
  rejected : ∀ faults, answer.result = .rejected faults →
    r.code = 65 ∧ (t.session.machine.host.printed = #[] → r.stdout = "")
  aborted : ∀ error, answer.result = .aborted error → r.code = 70
  finished : ∀ value, answer.result = .finished value → r.code = 0

/-- What is shown of an answer is shown with its diagnostics, and the exit code says whether there are any. -/
theorem shows_shown {α : Type} {shows : String → Prop} (answer : Answered α) (text : α → String) (log : Bool)
    (h : answer.session.anyRejected = !answer.diagnostics.isEmpty) (hshows : shows (text answer.result)) :
    Shows shows answer.diagnostics { shown answer text with log := log } := by
  refine ⟨hshows, rfl, ?_⟩
  show (if answer.session.anyRejected = true then rejectedCode else 0) = _
  rw [h]
  cases answer.diagnostics <;> rfl

/-- Tokens are listed, all of them, whatever is reported meanwhile. -/
theorem Asks.tokenize {asJson : Bool} (h : Asks command read (.tokenize asJson) source)
    (numberText : Float → String) (fuel : Nat) (host : Host) :
    ∃ r, Console.carryOut numberText fuel read host command = some r ∧
      Shows (Listed (TokenLine numberText asJson) (tokensOf (items source))) (lexicalDiagnostics (items source)) r :=
  ⟨_, h.carryOut numberText fuel host,
    shows_shown ((Session.start false host).tokenize source) _ command.log rfl (tokensText_listed ..)⟩

/-- The statements that could be read are drawn, all of them, whatever is reported meanwhile. -/
theorem Asks.parse (h : Asks command read .parse source) (numberText : Float → String) (fuel : Nat)
    (host : Host) : ∃ r, Console.carryOut numberText fuel read host command = some r ∧
      Shows (ShowsProgram (readProgram source false 0).program) (readProgram source false 0).diagnostics r :=
  ⟨_, h.carryOut numberText fuel host,
    shows_shown ((Session.start false host).parse source) _ command.log rfl (outlineText_shows _)⟩

/-- What is printed is the listing of the tokens, or the drawing of the statements. -/
theorem Asks.stdout (h : Asks command read task source) {numberText : Float → String} {fuel : Nat} {host : Host}
    {r : Report} (hr : Console.carryOut numberText fuel read host command = some r) :
    (∀ asJson, task = .tokenize asJson → r.stdout = tokensText numberText asJson (tokensOf (items source))) ∧
    (task = .parse → r.stdout = outlineText (readProgram source false 0).program) := by
  rw [h.carryOut] at hr
  constructor
  · rintro asJson rfl
    cases hr
    rfl
  · rintro rfl
    cases hr
    rfl

/-- The exit code of a run tells how it ended. -/
theorem Asks.run (h : Asks command read .run source) {numberText : Float → String} {fuel : Nat} {host : Host}
    {r : Report} (hr : Console.carryOut numberText fuel read host command = some r) :
    ∃ answer, Runs ⟨.start false host, fuel, source⟩ r answer := by
  rw [h.carryOut] at hr
  obtain ⟨r', hr', rfl⟩ := Option.map_eq_some_iff.mp hr
  obtain ⟨answer, hanswer, rfl⟩ := Option.map_eq_some_iff.mp hr'
  have haccounts := Turn.accounts_of_outcome (t := ⟨.start false host, fuel, source⟩) hanswer
  refine ⟨answer, hanswer, haccounts, rfl, rfl, fun faults hfaults => ?_, fun error herror => ?_,
    fun value hvalue => ?_⟩
  · rw [Turn.Accounts, hfaults] at haccounts
    refine ⟨congrArg codeOf hfaults, fun hnothing => ?_⟩
    show answer.session.machine.host.output = ""
    rw [haccounts.host, Host.output, hnothing]
    rfl
  · exact congrArg codeOf herror
  · exact congrArg codeOf hvalue

end Console

/-- **Verdicts, diagnostics, flags and exit codes agree.**  A submission that is answered is rejected,
    aborted or finished, as the answer says; and one about which something is reported is always answered.
    Flags are taken back only on request.  The command line exits with 65 after a rejected program, of which
    it has printed nothing, with 70 after an aborted one and with 0 after any other.  Where tokens are shown
    there is a line for each, and where statements are shown there is a tree for each, whatever is reported;
    the exit code is 65 where something was reported and 0 where nothing was. -/
theorem outcomes_agree (t : Turn) :
    (∀ answer, t.outcome? = some answer → t.Accounts answer) ∧
    (¬ t.Accepted → t.outcome?.isSome) ∧
    (∀ request s, t.session.serve request = some s → request ≠ .clearFlags →
      (t.session.anyRejected = true → s.anyRejected = true) ∧
      (t.session.anyAborted = true → s.anyAborted = true)) ∧
    t.session.serve .clearFlags = some { t.session with anyRejected := false, anyAborted := false } ∧
    ∀ command read host numberText,
      (Console.Asks command read .run t.source → ∀ r,
        Console.carryOut numberText t.fuel read host command = some r →
          ∃ answer, Console.Runs ⟨.start false host, t.fuel, t.source⟩ r answer) ∧
      (∀ asJson, Console.Asks command read (.tokenize asJson) t.source →
        ∃ r, Console.carryOut numberText t.fuel read host command = some r ∧
          Console.Shows (Listed (TokenLine numberText asJson) (tokensOf (items t.source)))
            (lexicalDiagnostics (items t.source)) r) ∧
      (Console.Asks command read .parse t.source →
        ∃ r, Console.carryOut numberText t.fuel read host command = some r ∧
          Console.Shows (ShowsProgram (readProgram t.source false 0).program)
            (readProgram t.source false 0).diagnostics r) :=
  ⟨fun _ => Turn.accounts_of_outcome, Turn.outcome_of_refused, fun _ _ => Session.flags_kept, rfl,
    fun _ _ host numberText => ⟨fun h _ => h.run, fun _ h => h.tokenize numberText t.fuel host,
      fun h => h.parse numberText t.fuel host⟩⟩

namespace AbortedFile

/-- A program that declares a variable and then reads a variable that there is not. -/
def source : String := "var a = nil;\nb;"

/-- Nothing has been read and nothing printed. -/
def host : Host := ⟨[], #[], .whole, fun _ => 0, 0⟩

/-- The file is submitted to a new session. -/
def turn : Turn := ⟨.start false host, 9, source⟩

/-- Every file holds the program. -/
def read : String → Except FileFault (List UInt8) := fun _ => .ok source.toUTF8.toList

/-- A task on a file. -/
def command (task : Task) : Command := ⟨task, some "program", true⟩

/-- The command is for its task on the file. -/
theorem asks (task : Task) : Console.Asks (command task) read task source :=
  ⟨rfl, "program", source.toUTF8.toList, rfl, rfl, by cbv⟩

/-- Running it ends with an error at the name in the second line. -/
theorem ends : turn.outcome?.map (fun answer => (Console.codeOf answer.result, answer.diagnostics)) =
    some (70, [.runtime ⟨⟨.identifier, "b", 2⟩, .undefinedVariable⟩]) := by
  cbv

/-- Its listing. -/
def listing : String :=
  "VAR var null\nIDENTIFIER a null\nEQUAL = null\nNIL nil null\nSEMICOLON ; null\nIDENTIFIER b null\n" ++
    "SEMICOLON ; null\nEOF  null\n"

/-- Its trees. -/
def trees : String := "Var a\n└─ Literal nil\nExpressionStatement\n└─ Variable b\n"

/-- Its tokens are printed as that. -/
theorem lists : Console.tokensText Number.json false (tokensOf (items source)) = listing := by cbv

/-- Its statements are printed as that. -/
theorem draws : outlineText (readProgram source false 0).program = trees := by cbv

/-- Nothing is reported about it before it runs. -/
theorem unreported : lexicalDiagnostics (items source) = [] ∧ (readProgram source false 0).diagnostics = [] :=
  ⟨by cbv, by cbv⟩

/-- The run is answered, so it has a report. -/
theorem reports {answer : Answered Verdict} (h : turn.outcome? = some answer) :
    ∃ r, Console.carryOut Number.json 9 read host (command .run) = some r := by
  have hsource : Console.onSource Number.json 9 host .run source = turn.outcome?.map fun answer =>
      ⟨answer.session.machine.host.output, Console.diagnosticsText answer.diagnostics,
        Console.codeOf answer.result, false⟩ := rfl
  rw [(asks .run).carryOut, hsource, h]
  exact ⟨_, rfl⟩

end AbortedFile

open AbortedFile in
/-- One file, of a program that an error ends: it is run, its tokens are listed, and its statements drawn. -/
theorem outcomes_agree_in_file :
    (∃ answer, turn.outcome? = some answer ∧ Console.codeOf answer.result = 70 ∧
      answer.diagnostics = [.runtime ⟨⟨.identifier, "b", 2⟩, .undefinedVariable⟩] ∧ turn.Accounts answer) ∧
    (∃ r, Console.carryOut Number.json 9 read host (command .run) = some r ∧
      ∃ answer, Console.Runs turn r answer) ∧
    (∃ r, Console.carryOut Number.json 9 read host (command (.tokenize false)) = some r ∧ r.stdout = listing ∧
      Console.Shows (Listed (TokenLine Number.json false) (tokensOf (items source))) [] r) ∧
    ∃ r, Console.carryOut Number.json 9 read host (command .parse) = some r ∧ r.stdout = trees ∧
      Console.Shows (ShowsProgram (readProgram source false 0).program) [] r := by
  obtain ⟨answer, hanswer, hends⟩ := Option.map_eq_some_iff.mp ends
  obtain ⟨hcode, hdiagnostics⟩ := Prod.ext_iff.mp hends
  obtain ⟨r, hr⟩ := reports hanswer
  have hagree := outcomes_agree turn
  have hconsole := fun task => hagree.2.2.2.2 (command task) read host Number.json
  obtain ⟨listed, hlisted, htokens⟩ := (hconsole (.tokenize false)).2.1 false (asks _)
  obtain ⟨drawn, hdrawn, hstatements⟩ := (hconsole .parse).2.2 (asks _)
  have hlisting := (((asks (.tokenize false)).stdout hlisted).1 false rfl).trans lists
  have hdrawing := (((asks .parse).stdout hdrawn).2 rfl).trans draws
  rw [show turn.source = source from rfl, unreported.1] at htokens
  rw [show turn.source = source from rfl, unreported.2] at hstatements
  exact ⟨⟨answer, hanswer, hcode, hdiagnostics, hagree.1 answer hanswer⟩,
    ⟨r, hr, (hconsole .run).1 (asks _) r hr⟩, ⟨listed, hlisted, hlisting, htokens⟩,
    drawn, hdrawn, hdrawing, hstatements⟩

end Lox
