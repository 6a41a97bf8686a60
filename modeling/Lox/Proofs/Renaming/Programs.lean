import Lox.Proofs.Joining.Sources
import Lox.Proofs.Renaming.Declarations
import Lox.Proofs.Renaming.Matching
import Lox.Proofs.Renaming.Reading
import Lox.Proofs.Renaming.Running

/-!
  Renamed programs.

  A local variable of a program can be called by any name that does not occur in the program
  (`renaming_changes_nothing`).  Each stage sees the renamed program as it saw the program:

  1. its tree is read from a source that is the same but for the name (`read_renamed`, from `parse_renamed` for
     the tokens and `source_of_tokens` for the text);
  2. every occurrence is matched with the same declaration (`resolve_renamed`), so that the distances are the
     same and nothing is reported;
  3. the run does the same, on machines that are related from the start (`runAll_renamed`, `opening_akin`).

  That the tree may be renamed is known from the program being accepted: it is a copy of itself in which the
  new name does not occur (`read_without`), and its scopes are clear of the old name but for the variable.

  The last theorem is a program with a local variable that shadows a global one, where the run ends with an
  error at a use of the variable.
-/

namespace Lox

open Scope

/-! ## Answers -/

/-- The submissions ended in the same way, with values that are shown in the same way or with errors that
    are the same but for the name of the variable. -/
inductive Verdict.Renamed (r : Renaming) : Verdict → Verdict → Prop where
  | finished {value value' : Option Value} : value'.map Value.printed = value.map Value.printed →
    Renamed r (.finished value) (.finished value')
  | aborted {e e' : RuntimeError} : e.Renamed r e' → Renamed r (.aborted e) (.aborted e')

/-- What is reported of a run is the same, but for the name of the variable. -/
inductive Diagnostic.Renamed (r : Renaming) : Diagnostic → Diagnostic → Prop where
  | runtime {e e' : RuntimeError} : e.Renamed r e' → Renamed r (.runtime e) (.runtime e')

/-- The answers are the same, but for the name of the variable: as much has been printed, as much of the
    input is left, and the clock has been read as often. -/
structure Answered.Renamed (r : Renaming) (a a' : Answered Verdict) : Prop where
  result : a.result.Renamed r a'.result
  diagnostics : List.Forall₂ (Diagnostic.Renamed r) a.diagnostics a'.diagnostics
  host : a'.session.machine.host = a.session.machine.host

/-! ## Sources -/

/-- The tokens of a source without faults of characters: those of the program, and its end. -/
theorem tokensOf_faultless {source : String} (h : faultsOf (items source) = []) :
    ∃ ts finish, tokensOf (items source) = ts ++ [finish] ∧ (∀ t ∈ ts, t.isEof = false) ∧
      finish.isEof = true := by
  obtain ⟨ts, hts, hitems, -⟩ := itemsAt_join h
  exact ⟨ts, _, tokensOf_itemsAt hitems, hts, rfl⟩

/-- **There is a source of the renamed program**, and it is the same but for the name. -/
theorem read_renamed {r : Renaming} {source : String} {interactive : Bool} {firstId : Nat}
    (hread : (readProgram source interactive firstId).diagnostics = []) (hnew : IsIdentifier r.new)
    {program : List Stmt}
    (hp : Renamed r [] (.stmts (readProgram source interactive firstId).program) (.stmts program)) :
    ∃ source' : String,
      List.Forall₂ (Piece.Respelled r.old r.new) (pieces source.toList) (pieces source'.toList) ∧
      readProgram source' interactive firstId =
        ⟨program, [], (readProgram source interactive firstId).nextId⟩ := by
  obtain ⟨hlexical, hparse⟩ := List.append_eq_nil_iff.mp hread
  have hfaults := lexicalDiagnostics_nil.mp hlexical
  -- The tokens are those before the end of the file, which is neither renamed nor read.
  obtain ⟨ts, finish, htokens, hts, hf⟩ := tokensOf_faultless hfaults
  simp only [readProgram, htokens] at hparse hp ⊢
  obtain ⟨ts', hrespelled, -, hparsed⟩ := Grammar.parse_renamed hf hts hparse hp
  have hall : List.Forall₂ (Token.Respelled r.old r.new) (tokensOf (items source)) (ts' ++ [finish]) := by
    rw [htokens]
    exact List.rel_append hrespelled (.cons (.inl rfl) .nil)
  obtain ⟨source', hpieces, htokens', hfaults'⟩ := source_of_tokens hnew hfaults hall
  refine ⟨source', hpieces, ?_⟩
  rw [lexicalDiagnostics_nil.mpr hfaults', htokens', hparsed]
  rfl

/-- **A program in whose source a name does not occur is the same without the name.** -/
theorem read_without {x : String} (hx : x ≠ "this") {source : String}
    (hfaults : faultsOf (items source) = []) (hfresh : ∀ t ∈ tokensOf (items source), t.lexeme ≠ x)
    (interactive : Bool) (firstId : Nat) :
    Copy (.without x hx) (.stmts (readProgram source interactive firstId).program)
      (.stmts (readProgram source interactive firstId).program) := by
  obtain ⟨ts, finish, htokens, hts, hf⟩ := tokensOf_faultless hfaults
  have hsame : ∀ t ∈ ts ++ [finish], (Likeness.without x hx).token t t := by
    intro t hmem
    exact ⟨rfl, hfresh t (by rw [htokens]; exact hmem)⟩
  have hfinish : (Likeness.without x hx).token
      (Grammar.Cursor.start (ts ++ [finish]) interactive firstId).finish
      (Grammar.Cursor.start (ts ++ [finish]) interactive (firstId + 0)).finish := by
    rw [start_finish hts hf, start_finish hts hf]
    exact hsame finish (List.mem_append_right _ List.mem_cons_self)
  have hparsed := Grammar.parse_copies (List.forall₂_same.mpr hsame) interactive hfinish fun _ _ => rfl
  rw [readProgram, htokens]
  exact hparsed.program

/-! ## Runs -/

section Runs

variable {r : Renaming}

/-- The machine of the first submission is related to itself, in the one frame of the globals. -/
theorem opening_akin (r : Renaming) (host : Host) :
    Machine.Akin r [false] [] ((Machine.start host).learn r.found) ((Machine.start host).learn r.found) := by
  refine ⟨initial_akin r, rfl, .global rfl, rfl, rfl, fun id => ?_⟩
  have hnone : (Machine.start host).resolution[id]? = none := Std.TreeMap.getElem?_emptyc
  rw [Machine.learn, getElem?_learn, hnone, Option.or_none]

/-- **A program and the renamed one are answered alike.** -/
theorem outcome_renamed (hp : r.Plain) {t t' : Turn} (hfuel : t'.fuel = t.fuel) (ha : t.Accepted)
    (ha' : t'.Accepted) (hprogram : Renamed r [] (.stmts t.parsed.program) (.stmts t'.parsed.program))
    (hmachine : Machine.Akin r [false] [] t.machine t'.machine) :
    Option.Rel (Answered.Renamed r) t.outcome? t'.outcome? := by
  have hruns := Eval.runAll_renamed hp t.fuel hprogram .none [false] List.prefix_rfl _ _ hmachine
  rw [Turn.outcome_accepted ha, Turn.outcome_accepted ha', hfuel]
  generalize Eval.runAll t.fuel t.parsed.program none t.machine = ending at hruns ⊢
  generalize Eval.runAll t.fuel t'.parsed.program none t'.machine = ending' at hruns ⊢
  cases hruns with
  | done _ hvalue hm =>
    refine .some ⟨.finished ?_, .nil, hm.host⟩
    cases hvalue with
    | none => rfl
    | some hv => exact congrArg some hv.printed_eq
  | failed _ he hm => exact .some ⟨.aborted he, .cons (.runtime he) .nil, hm.host⟩
  | exhausted => exact .none

end Runs

/-- A first submission. -/
def Turn.first (interactive : Bool) (host : Host) (fuel : Nat) (source : String) : Turn :=
  ⟨.start interactive host, fuel, source⟩

/-- What the first turn reads. -/
theorem Turn.parsed_first (interactive : Bool) (host : Host) (fuel : Nat) (source : String) :
    (first interactive host fuel source).parsed = readProgram source interactive 0 := by
  rw [Turn.parsed, Session.read, first, Session.start]

/-- What is found about it. -/
theorem Turn.resolved_first (interactive : Bool) (host : Host) (fuel : Nat) (source : String) :
    (first interactive host fuel source).resolved = resolve (readProgram source interactive 0).program := by
  rw [Turn.resolved, parsed_first]

/-- The machine that it runs on: a new one that knows the distances. -/
theorem Turn.machine_first (interactive : Bool) (host : Host) (fuel : Nat) (source : String) :
    (first interactive host fuel source).machine =
      (Machine.start host).learn (resolve (readProgram source interactive 0).program).resolution := by
  rw [Turn.machine, resolved_first, first, Session.start]

/-! ## Renaming -/

/-- **Renaming a local variable changes nothing.**  Let nothing be reported about a program, let one of its
    blocks or functions declare a variable or a parameter, and let a name that is not reserved occur nowhere
    in the program.  With this name for the variable, in its declaration and in the occurrences that were
    found to mean it, the program is read from a source that is the same but for these names, nothing is
    reported about it, and with whatever input, readings of the clock and fuel it ends if the program does:
    it prints the same, reads the same, and hands back a value that is shown in the same way or fails with
    the same error, whose token and so whose wording may have the new name for the old one. -/
theorem renaming_changes_nothing {source : String} {interactive : Bool}
    (hread : (readProgram source interactive 0).diagnostics = [])
    (hmatched : (resolve (readProgram source interactive 0).program).diagnostics = [])
    {r : Renaming} (hfound : r.found = (resolve (readProgram source interactive 0).program).resolution)
    {scope : LocalScope}
    (hscope : (stmtsLocalScopes (readProgram source interactive 0).program)[r.scope]? = some scope)
    (hdeclares : scope.Declares r.old) (hnew : IsIdentifier r.new)
    (hfresh : ∀ t ∈ tokensOf (items source), t.lexeme ≠ r.new) :
    ∃ source' : String,
      List.Forall₂ (Piece.Respelled r.old r.new) (pieces source.toList) (pieces source'.toList) ∧
      readProgram source' interactive 0 = ⟨r.program (readProgram source interactive 0).program, [],
        (readProgram source interactive 0).nextId⟩ ∧
      (resolve (r.program (readProgram source interactive 0).program)).diagnostics = [] ∧
      ∀ host fuel, Option.Rel (Answered.Renamed r) ((Session.start interactive host).run fuel source)
        ((Session.start interactive host).run fuel source') := by
  have hnotThis : r.new ≠ "this" := fun h => absurd hnew.free (by rw [h]; decide)
  have hnotSuper : r.new ≠ "super" := fun h => absurd hnew.free (by rw [h]; decide)
  -- The program is accepted: its sites are settled, and no declaration is called `this` or `super`.
  obtain ⟨is, hformed, hnumbered⟩ := formed_of_read hread
  have hsettled : Settled r.found (.program (readProgram source interactive 0).program) :=
    ⟨is, sits_program hformed hnumbered hmatched fun _ _ => by rw [hfound]⟩
  have hplain : r.Plain := by
    obtain ⟨p, hp, ho⟩ := opened_of_settled hsettled hscope
    obtain ⟨holdThis, holdSuper⟩ := hp.declares_plain ho hdeclares
    exact ⟨⟨holdThis, hnotThis⟩, ⟨holdSuper, hnotSuper⟩⟩
  -- Its tree is renamed in the sense of the relation, read from a source, and matched.
  have hfaults := lexicalDiagnostics_nil.mp (List.append_eq_nil_iff.mp hread).1
  have hrenamed : Renamed r [] (.stmts (readProgram source interactive 0).program)
      (.stmts (r.program (readProgram source interactive 0).program)) :=
    renamed_rename (read_without hnotThis hfaults hfresh interactive 0) hsettled
      (clear_of_declares hsettled hscope hdeclares) nofun
  obtain ⟨source', hpieces, hread'⟩ := read_renamed hread hnew hrenamed
  obtain ⟨hsame, hclean⟩ := resolve_renamed hplain hrenamed hsettled
  refine ⟨source', hpieces, hread', hclean, fun host fuel => ?_⟩
  -- Both runs start with a new machine and the same distances.
  have hopening := opening_akin r host
  show Option.Rel (Answered.Renamed r) (Turn.first interactive host fuel source).outcome?
    (Turn.first interactive host fuel source').outcome?
  have haccepted : (Turn.first interactive host fuel source).Accepted :=
    ⟨by rw [Turn.parsed_first, hread], by rw [Turn.resolved_first, hmatched]⟩
  have haccepted' : (Turn.first interactive host fuel source').Accepted :=
    ⟨by rw [Turn.parsed_first, hread'], by rw [Turn.resolved_first, hread', hclean]⟩
  refine outcome_renamed hplain rfl haccepted haccepted' ?_ ?_
  · rw [Turn.parsed_first, Turn.parsed_first, hread']
    exact hrenamed
  · rw [Turn.machine_first, Turn.machine_first, hread', hsame, ← hfound]
    exact hopening

namespace Shadowed

/-- A block with a variable that has no value, and within it a block with another of the same name. -/
def source : String := "\x7b var a; \x7b var a = nil; a; \x7d\n a; \x7d"

/-- The outer variable is to be called `c`. -/
def newName : Renaming := ⟨"a", "c", 0, (resolve (readProgram source false 0).program).resolution⟩

/-- The outer block. -/
def scope : LocalScope :=
  ⟨[], [.varDecl ⟨.identifier, "a", 1⟩ none,
    .block [.varDecl ⟨.identifier, "a", 1⟩ (some (.literal .nil)),
      .expression (.variable ⟨0, ⟨.identifier, "a", 1⟩⟩)],
    .expression (.variable ⟨1, ⟨.identifier, "a", 2⟩⟩)]⟩

theorem read : (readProgram source false 0).diagnostics = [] := by cbv

theorem matched : (resolve (readProgram source false 0).program).diagnostics = [] := by cbv

theorem opens : (stmtsLocalScopes (readProgram source false 0).program)[newName.scope]? = some scope := by
  cbv

theorem declares : scope.Declares newName.old :=
  LocalScope.Declares.varDecl (t := ⟨.identifier, "a", 1⟩) List.mem_cons_self

theorem named : IsIdentifier newName.new := ⟨⟨'c', [], rfl, by decide, nofun⟩, by decide⟩

theorem fresh : ∀ t ∈ tokensOf (items source), t.lexeme ≠ newName.new := by
  have h : (tokensOf (items source)).all (·.lexeme ≠ newName.new) = true := by cbv
  simpa only [List.all_eq_true, decide_eq_true_eq] using h

theorem program_eq : newName.program (readProgram source false 0).program =
    (readProgram "\x7b var c; \x7b var a = nil; a; \x7d\n c; \x7d" false 0).program := by
  cbv

theorem found : newName.found = (resolve (readProgram source false 0).program).resolution := by
  rw [newName]

theorem ends : ((Session.start false ⟨[], #[], .whole, fun _ => 0, 0⟩).run 9 source).map (·.result.outcome) =
    some (.aborted ⟨⟨.identifier, "a", 2⟩, .notInitialized⟩) := by
  cbv

end Shadowed

open Shadowed in
/-- The outer variable of two that have one name: the error that ends the run has the new name. -/
theorem renaming_changes_nothing_shadowed :
    (stmtsLocalScopes (readProgram source false 0).program)[newName.scope]? = some scope ∧
      scope.Declares newName.old ∧
      newName.program (readProgram source false 0).program =
        (readProgram "\x7b var c; \x7b var a = nil; a; \x7d\n c; \x7d" false 0).program ∧
      ((Session.start false ⟨[], #[], .whole, fun _ => 0, 0⟩).run 9 source).map (·.result.outcome) =
        some (.aborted ⟨⟨.identifier, "a", 2⟩, .notInitialized⟩) ∧
      ∃ source' : String,
        List.Forall₂ (Piece.Respelled newName.old newName.new) (pieces source.toList) (pieces source'.toList) ∧
        readProgram source' false 0 = ⟨newName.program (readProgram source false 0).program, [],
          (readProgram source false 0).nextId⟩ ∧
        (resolve (newName.program (readProgram source false 0).program)).diagnostics = [] ∧
        ∀ host fuel, Option.Rel (Answered.Renamed newName) ((Session.start false host).run fuel source)
          ((Session.start false host).run fuel source') :=
  ⟨opens, declares, program_eq, ends,
    renaming_changes_nothing read matched found opens declares named fresh⟩

end Lox
