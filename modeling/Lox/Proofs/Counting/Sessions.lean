import Mathlib
import Lox.Proofs.Counting.Loops
import Lox.Proofs.Counting.Reading
import Lox.Proofs.Lexical.Sessions

/-!
  Sessions with counting loops.

  A session may also be run with the programs as they are written, each submission with a program that is
  read from its source (`Readings`).  Then it shows the same as the session itself, where every counting
  loop is written with a `while` loop.  Only the fuel differs that this takes.

  The two are not compared directly.  The session itself keeps frames and distances; that it shows what a
  session of scopes and cells shows has been proved elsewhere (`Lexical.kept_start`), and it is with those
  that the programs are run side by side here (`InStep`).  One submission (`InStep.run`) keeps the sessions
  in step, and by induction over the submissions they show the same (`InStep.transcript`).

  Both directions of `counting_loops_run_as_written` come of the same lemma: with the side of the lowered
  programs short of fuel what the session shows is shown with the loops, and with the other side short what
  is shown with the loops the session shows.
-/

namespace Lox

namespace Counting

variable {short : Side} {fuel fuel' : Nat}

/-! ## Programs -/

/-- The statements of a program, one by one, with the value of the last that hands one back. -/
theorem runAll_like (h : short.Pace fuel fuel') (program : List Stmt) {last : Option (Value Sight)}
    {last' : Option (Value Scopes)} (hlast : Option.Rel Like last last') :
    Runs short (Option.Rel Like) (runAll fuel program last)
      (Lexical.runAll fuel' (lowerStmts program) last') := by
  induction program generalizing last last' with
  | nil => exact .pure hlast
  | cons s ss ih =>
    -- All statements but those that hand a value back are run in the same way.
    have hrun := ((faithful short fuel).execute s h .top).bind (Q := Option.Rel Like)
      fun _ _ _ => ih hlast
    cases s with
    | value e => exact ((faithful short fuel).evaluate e h rfl).bind fun _ _ hv => ih (.some hv)
    | forLoop initializer => cases initializer <;> exact hrun
    | _ => exact hrun

/-- Before the first program the globals are the native functions on both sides. -/
theorem start_beside (host : Host) : Beside (.start host) (.start host) := by
  have hnatives : ∀ (natives : List Native) (t : Table (Option (Value Sight)))
      (t' : Table (Option (Value Scopes))), Table.Related (Option.Rel Like) t t' →
      Table.Related (Option.Rel Like) (natives.foldl (fun t n => t.insert n.name (some (.native n))) t)
        (natives.foldl (fun t n => t.insert n.name (some (.native n))) t') := by
    intro natives
    induction natives with
    | nil => exact fun _ _ h => h
    | cons n natives ih => exact fun _ _ h => ih _ _ (h.insert n.name (.some (.native n)))
  exact ⟨fun _ => .none, hnatives _ _ _ .empty, fun _ => .none, rfl, rfl⟩

/-! ## Submissions

  A session over trees with counting loops and one over sources, each submission being a reading of the source.
  One submission keeps them in step, so a list of them does. -/

/-- Both sides have answered, with answers that are related, or one of them is short of fuel. -/
inductive Answers (short : Side) {α β : Type} (R : α → β → Prop) : Option α → Option β → Prop where
  | both {a b} : R a b → Answers short R (some a) (some b)
  | counting {b} : short = .counting → Answers short R none b
  | lowered {a} : short = .lowered → Answers short R a none

/-- The sessions are in step between submissions. -/
structure InStep (s : Session) (r : Lexical.Session) : Prop where
  interactive : r.interactive = s.interactive
  nextId : r.nextId = s.nextId
  state : Beside s.state r.state

/-- Nothing is reported about a program of which nothing was reported when it was read. -/
theorem diagnostics_of_faults {parsed : Parsed} (h : (Lexical.Session.faults parsed).isEmpty = true) :
    parsed.diagnostics = [] := by
  unfold Lexical.Session.faults at h
  split at h
  · rename_i hnone
    exact List.isEmpty_iff.mp hnone
  · exact List.isEmpty_iff.mp h

/-- One submission. It is rejected for the same reasons on both sides, or run on both. -/
theorem InStep.run {s : Session} {r : Lexical.Session} (h : InStep s r) {source : String}
    {program : List Stmt} (hpace : short.Pace fuel fuel')
    (hread : (readProgram source s.interactive s.nextId).diagnostics = [] →
      Reading source s.interactive s.nextId program) :
    Answers short (fun a b => a.1 = b.1 ∧ InStep a.2 b.2 ∧
        a.2.interactive = s.interactive ∧ a.2.nextId = (readProgram source s.interactive s.nextId).nextId)
      (s.run ⟨fuel, source, program⟩) (r.run fuel' source) := by
  unfold Session.run Lexical.Session.run
  rw [h.interactive, h.nextId]
  dsimp only
  -- What may be reported does not depend on how the program is run, so the two sides reject the same sources.
  split
  · rename_i hfaults
    have hends := runAll_like hpace program .none s.state r.state h.state
    rw [(hread (diagnostics_of_faults hfaults)).lowered] at hends
    generalize runAll fuel program none s.state = ending, Lexical.runAll fuel' _ none r.state = ending' at hends
    cases hends with
    | done hvalue hstate =>
      refine .both ⟨?_, ⟨rfl, rfl, hstate⟩, rfl, rfl⟩
      cases hvalue with
      | none => rfl
      | some hv => simp only [Option.map_some, hv.printed_eq Lowered.displayName_eq]
    | failed hstate => exact .both ⟨rfl, ⟨rfl, rfl, hstate⟩, rfl, rfl⟩
    | counting hshort => exact .counting hshort
    | lowered hshort =>
      exact .lowered hshort
  · exact .both ⟨rfl, ⟨rfl, rfl, h.state⟩, rfl, rfl⟩

/-- Each program is one that is read from the source of its submission, if nothing is reported about it.
    `firstId` is the number of the first occurrence of a name. -/
def Readings (interactive : Bool) : Nat → List Submission → Prop
  | _, [] => True
  | firstId, s :: rest =>
    ((readProgram s.source interactive firstId).diagnostics = [] →
      Reading s.source interactive firstId s.program) ∧
    Readings interactive (readProgram s.source interactive firstId).nextId rest

/-- What is shown is the same, whatever fuel the sides are given that keeps them at pace. -/
theorem InStep.transcript {s : Session} {r : Lexical.Session} (h : InStep s r) (given given' : Nat → Nat)
    (hpace : ∀ n, short.Pace (given n) (given' n)) {submissions : List Submission}
    (hread : Readings s.interactive s.nextId submissions) :
    Answers short (· = ·) (s.transcript (submissions.map fun t => { t with fuel := given t.fuel }))
      (r.transcript (submissions.map fun t => (given' t.fuel, t.source))) := by
  induction submissions generalizing s r with
  | nil => exact .both rfl
  | cons t rest ih =>
    obtain ⟨hfirst, hrest⟩ := hread
    have hrun := h.run (hpace t.fuel) hfirst
    rw [List.map_cons, List.map_cons, Session.transcript, Lexical.Session.transcript]
    generalize s.run ⟨given t.fuel, t.source, t.program⟩ = answer,
      r.run (given' t.fuel) t.source = answer' at hrun
    cases hrun with
    | counting hshort => exact .counting hshort
    | lowered hshort => exact .lowered hshort
    | @both a b hab =>
      obtain ⟨outcome, s'⟩ := a
      obtain ⟨outcome', r'⟩ := b
      -- The session behind the first submission is in step again, with the numbers that the rest is read
      -- from.
      obtain ⟨houtcome, hstep, hinteractive, hnextId⟩ := hab
      dsimp only at houtcome hstep hinteractive hnextId
      subst houtcome
      rw [← hnextId, ← hinteractive] at hrest
      have hothers := ih hstep hrest
      simp only [Option.bind_eq_bind, Option.bind_some]
      generalize s'.transcript _ = others, r'.transcript _ = others' at hothers
      cases hothers with
      | both heq =>
        subst heq
        refine .both ?_
        rw [hstep.state.host]
      | counting hshort => exact .counting hshort
      | lowered hshort => exact .lowered hshort

/-- What one side has answered the other answers too, if it is not the one that is short of fuel. -/
theorem Answers.of_counting {α : Type} {a : Option α} {b : α} {x : Option α}
    (h : Answers .counting (· = ·) x a) (hx : x = some b) : a = some b := by
  cases h with
  | both heq => rw [← heq, hx]
  | counting => cases hx
  | lowered hshort => cases hshort

/-- So it is the other way round. -/
theorem Answers.of_lowered {α : Type} {a : Option α} {b : α} {x : Option α}
    (h : Answers .lowered (· = ·) a x) (hx : x = some b) : a = some b := by
  cases h with
  | both heq => rw [heq, hx]
  | counting hshort => cases hshort
  | lowered => cases hx

/-- Sessions begin in step. -/
theorem start_inStep (interactive : Bool) (host : Host) :
    InStep (.start interactive host) (.start interactive host) :=
  ⟨rfl, rfl, start_beside host⟩

end Counting

/-- **Counting loops run as they are written.**  Every source that is read without a report is that of a
    program in which its counting loops still stand.  With these programs a session shows the same when
    they are run directly as when they are run with `while` loops and blocks in their place: each
    submission is rejected, comes to its end with the same value shown or is ended by the same error, and
    leaves the same of the host.  Each way comes to an end if the other does; running directly takes at
    most twice the fuel, and at least a fifth. -/
theorem counting_loops_run_as_written :
    (∀ (source : String) (interactive : Bool) (firstId : Nat),
      (readProgram source interactive firstId).diagnostics = [] →
      ∃ program, Counting.Reading source interactive firstId program) ∧
    ∀ (interactive : Bool) (host : Host) (submissions : List Counting.Submission),
      Counting.Readings interactive 0 submissions →
      (∀ shown,
        (Session.start interactive host).transcript (submissions.map fun t => (t.fuel, t.source)) =
          some shown →
        (Counting.Session.start interactive host).transcript
          (submissions.map fun t => { t with fuel := 2 * t.fuel }) = some shown) ∧
      ∀ shown,
        (Counting.Session.start interactive host).transcript submissions = some shown →
        (Session.start interactive host).transcript
          (submissions.map fun t => (5 * t.fuel, t.source)) = some shown := by
  refine ⟨fun _ _ _ => Counting.reading_of_read, fun interactive host submissions hread => ⟨?_, ?_⟩⟩
  · -- The session goes as the scopes and cells do, which are then followed loop by loop.
    intro shown hshown
    rw [(Lexical.kept_start interactive host).transcript] at hshown
    have hpace : ∀ n, Counting.Side.lowered.Pace (2 * n) n := fun _ => Nat.le_refl _
    exact ((Counting.start_inStep interactive host).transcript _ _ hpace hread).of_lowered hshown
  · intro shown hshown
    rw [(Lexical.kept_start interactive host).transcript]
    have hpace : ∀ n, Counting.Side.counting.Pace n (5 * n) := fun _ => Nat.le_refl _
    refine ((Counting.start_inStep interactive host).transcript _ _ hpace hread).of_counting ?_
    rw [← hshown]
    exact congrArg (Counting.Session.transcript · _) (List.map_id _)

namespace SharedCounter

open Counting

/-- A function that is made in the first round, and a variable of the body with the name of the counter. -/
def source : String :=
  "var f = nil; for var i = \"a\"; i != \"aaa\"; i = i + \"a\" \x7b " ++
    "func show() \x7b print(i); \x7d if f == nil \x7b f = show; \x7d var i = \"b\"; \x7d f();"

def name (x : String) : Token := ⟨.identifier, x, 1⟩

def paren : Token := ⟨.mark .rightParen, ")", 1⟩

/-- The program with its loop. -/
def program : List Counting.Stmt :=
  [.varDecl (name "f") (some (.literal .nil)),
    .forLoop (some (.varDecl (name "i") (some (.literal (.string "a")))))
      (some (.binary (.variable ⟨0, name "i"⟩) ⟨.mark .bangEqual, "!=", 1⟩ (.literal (.string "aaa"))))
      (some (.assign ⟨3, name "i"⟩
        (.binary (.variable ⟨2, name "i"⟩) ⟨.mark .plus, "+", 1⟩ (.literal (.string "a")))))
      [.funcDecl (.mk (some (name "show")) ⟨.keyword .funcKw, "func", 1⟩ []
          [.expression (.call (.variable ⟨4, name "print"⟩) paren [.variable ⟨5, name "i"⟩])]),
        .ifElse (.binary (.variable ⟨6, name "f"⟩) ⟨.mark .equalEqual, "==", 1⟩ (.literal .nil))
          (.block [.expression (.assign ⟨9, name "f"⟩ (.variable ⟨8, name "show"⟩))]) none,
        .varDecl (name "i") (some (.literal (.string "b")))],
    .expression (.call (.variable ⟨10, name "f"⟩) paren [])]

def host : Host := ⟨[], #[], .whole, fun _ => 0, 0⟩

/-- The program is that of the source: this is evaluated, on both sides of each equation. -/
theorem reading : Reading source false 0 program where
  lowered := by cbv
  written := by decide +kernel

/-- Nothing is reported about the source. -/
theorem accepted : (readProgram source false 0).diagnostics = [] :=
  List.isEmpty_iff.mp (by decide +kernel)

/-- The session comes to its end, and has printed the counter as it was after the last round. -/
theorem ends : ((Session.start false host).transcript [(60, source)]).map
    (·.map fun entry => (entry.1, entry.2.printed.toList)) = some [(.finished none, ["aaa\n"])] := by
  decide +kernel

end SharedCounter

open SharedCounter Counting in
/-- The function shows the counter as it is after the last round. -/
theorem counting_loops_run_as_written_shared :
    (∃ program, Reading source false 0 program) ∧
    ∃ shown,
      (Session.start false host).transcript [(60, source)] = some shown ∧
      (Counting.Session.start false host).transcript [⟨120, source, program⟩] = some shown ∧
      (Session.start false host).transcript [(600, source)] = some shown ∧
      shown.map (fun entry => (entry.1, entry.2.printed.toList)) = [(.finished none, ["aaa\n"])] := by
  obtain ⟨hread, hrun⟩ := counting_loops_run_as_written
  have hreadings : ∀ fuel, Readings false 0 [⟨fuel, source, program⟩] :=
    fun _ => ⟨fun _ => reading, trivial⟩
  obtain ⟨shown, hshown, hprinted⟩ := Option.map_eq_some_iff.mp ends
  have hdirect := (hrun false host _ (hreadings 60)).1 shown hshown
  exact ⟨hread source false 0 accepted, shown, hshown, hdirect,
    (hrun false host _ (hreadings 120)).2 shown hdirect, hprinted⟩

end Lox
