import Lox.Proofs.Renaming.Trees
import Lox.Proofs.Scope.Recorded

/-!
  Matching the names of a renamed program.

  The resolver walks over a program and over the renamed one abreast.  The open scopes are the same but for the
  names in those that are marked (`RenamedTo`, `ScopesRenamed`), the new name is in none of the former ones,
  and what has been found is the same (`WalkRenamed`).

  The one thing to show is that every occurrence finds its declaration as far out as before
  (`ScopesRenamed.find`).  An occurrence is renamed if the distance that was recorded for it leads to the
  marked scope.  Looking outward, a scope inside that has another name under the two spellings could only be
  one in which the old or the new name is declared: the old one would have been found there before, and the new
  one is in no scope (`RenamedTo.lacks`).

  The rest follows the walk: one lemma for each of its small steps, with the hypothesis that the step reported
  nothing in the program, and the induction over the renaming of trees (`walk_renamed`).  So the distances of
  the renamed program are those of the program, and nothing is reported about it.
-/

namespace Lox

open Scope
open Renaming (classMarks)

/-! ## Scopes

  One scope is marked, and has the new name where the other walk has the old one. -/

/-- The second scope has the names that the first has behind the renaming.  The new name is not in the
    first. -/
structure Scope.RenamedTo (r : Renaming) (mark : Bool) (a a' : Scope) : Prop where
  names : ∀ x, a'.get? (r.name mark x) = a.get? x
  fresh : a.get? r.new = none

/-- The scopes have the names that the others have behind the renaming. -/
inductive ScopesRenamed (r : Renaming) : List Bool → List Scope → List Scope → Prop where
  | nil : ScopesRenamed r [] [] []
  | cons {mark marks a a' as as'} : Scope.RenamedTo r mark a a' → ScopesRenamed r marks as as' →
    ScopesRenamed r (mark :: marks) (a :: as) (a' :: as')

namespace Scope.RenamedTo

variable {r : Renaming} {mark : Bool} {a a' : Scope}

/-- Empty scopes are renamed to each other. -/
theorem empty : RenamedTo r mark .empty .empty := ⟨fun _ => rfl, rfl⟩

/-- A name is declared in both, in the one under the name that it has there. -/
theorem insert (h : RenamedTo r mark a a') {x : String} (hx : x ≠ r.new) (standing : Standing) :
    RenamedTo r mark (a.insert x standing) (a'.insert (r.name mark x) standing) := by
  refine ⟨fun y => ?_, ?_⟩
  · simp only [Table.get?_insert, r.name_inj, h.names y]
  · rw [Table.get?_insert_of_ne _ _ hx, h.fresh]

/-- A scope has a name if the renamed one has the name that it is called by. -/
theorem contains (h : RenamedTo r mark a a') (x : String) :
    a'.contains (r.name mark x) = a.contains x := by
  rw [Table.contains, h.names, Table.contains]

/-- A name that is not in the scope is not in the other, wherever it is looked for. -/
theorem lacks (h : RenamedTo r mark a a') {x : String} (hx : x ≠ r.new) (hnone : a.get? x = none)
    (mark' : Bool) : a'.get? (r.name mark' x) = none := by
  have hname : a'.get? (r.name mark' x) = a.get? (r.name mark (r.name mark' x)) := by
    rw [← h.names, r.name_name]
  by_cases hold : x = r.old
  · subst hold
    rw [hname]
    -- The name is the one that is renamed. In the renamed scope it may be asked for in either spelling, and
    -- both lead back to the old name or the new one, of which the scope has neither.
    cases mark with
    | false =>
      cases mark' with
      | false => exact hnone
      | true =>
        show a.get? (Equiv.swap r.old r.new r.old) = none
        rw [Equiv.swap_apply_left, h.fresh]
    | true =>
      cases mark' with
      | false =>
        show a.get? (Equiv.swap r.old r.new r.old) = none
        rw [Equiv.swap_apply_left, h.fresh]
      | true => rw [r.name_name, hnone]
  · rw [hname, r.name_of_ne mark' hold hx, r.name_of_ne mark hold hx, hnone]

end Scope.RenamedTo

namespace ScopesRenamed

variable {r : Renaming} {marks : List Bool} {as as' : List Scope}

/-- A name is found as far out as before, under the name that it has there; and the innermost scope says
    the same of it. -/
theorem find (h : ScopesRenamed r marks as as') {x : String} (hx : x ≠ r.new) :
    let y := r.name (markAt marks (as.findIdx? (·.contains x))) x
    as'.findIdx? (·.contains y) = as.findIdx? (·.contains x) ∧
      as'.head?.bind (·.get? y) = as.head?.bind (·.get? x) := by
  -- From the innermost scope outward; the mark that counts is that of the scope in which the name is found.
  induction h with
  | nil => exact ⟨rfl, rfl⟩
  | @cons mark marks a a' as as' ha _ ih =>
    simp only [List.findIdx?_cons, List.head?_cons, Option.bind_some]
    cases hc : a.contains x with
    | true =>
      have hname : r.name (markAt (mark :: marks) (some 0)) x = r.name mark x := rfl
      simp only [if_true, hname, ha.contains, ha.names, hc, and_self]
    | false =>
      have hnone : a.get? x = none := by
        rw [Table.contains] at hc
        exact Option.not_isSome_iff_eq_none.mp (Bool.eq_false_iff.mp hc)
      have hmark : markAt (mark :: marks) ((as.findIdx? (·.contains x)).map (· + 1)) =
          markAt marks (as.findIdx? (·.contains x)) := by
        cases as.findIdx? (·.contains x) <;> rfl
      -- This scope does not have the name, in whatever spelling it is looked for.
      have hlacks := ha.lacks hx hnone (markAt marks (as.findIdx? (·.contains x)))
      have hc' : a'.contains (r.name (markAt marks (as.findIdx? (·.contains x))) x) = false := by
        rw [Table.contains, hlacks]
        rfl
      simp only [Bool.false_eq_true, if_false, hmark, hc', ih.1, hlacks, hnone, and_self]

end ScopesRenamed

/-! ## Walks

  Both walks record the same distances and report nothing. -/

/-- The walks have come equally far, and nothing is reported of the second. -/
structure WalkRenamed (r : Renaming) (marks : List Bool) (w w' : Walk) : Prop where
  scopes : ScopesRenamed r marks w.scopes w'.scopes
  found : w'.found = w.found
  clean : w'.problems = #[]

namespace WalkRenamed

variable {r : Renaming} {marks : List Bool} {w w' : Walk}

/-- Before the first step no scope is open. -/
theorem start (r : Renaming) : WalkRenamed r [] .start .start := ⟨.nil, rfl, rfl⟩

section Steps

variable (h : WalkRenamed r marks w w')
include h

/-- A new scope, with any mark. -/
theorem enter (mark : Bool) : WalkRenamed r (mark :: marks) w.enter w'.enter :=
  ⟨.cons .empty h.scopes, h.found, h.clean⟩

omit h in
/-- The innermost scope is left on both sides. -/
theorem leave {mark : Bool} (h : WalkRenamed r (mark :: marks) w w') :
    WalkRenamed r marks w.leave w'.leave := by
  refine ⟨?_, h.found, h.clean⟩
  have hscopes := h.scopes
  unfold Walk.leave
  generalize w.scopes = as, w'.scopes = as' at hscopes
  cases hscopes with
  | cons _ hrest => exact hrest

/-- A name of the innermost scope can be used from now on. -/
theorem define {x : String} (hx : x ≠ r.new) :
    WalkRenamed r marks (w.define x) (w'.define (r.name (marks.headD false) x)) := by
  have hscopes := h.scopes
  unfold Walk.define
  generalize hs : w.scopes = as, hs' : w'.scopes = as' at hscopes
  cases hscopes with
  | nil => exact h
  | cons ha hrest => exact ⟨.cons (ha.insert hx _) hrest, h.found, h.clean⟩

/-- A name that is new to the innermost scope is new to the renamed one. -/
theorem declare {t t' : Token} (ht : r.Tok (marks.headD false) t t') (hnew : Unclaimed t.lexeme w) :
    WalkRenamed r marks (w.declare t) (w'.declare t') := by
  have hscopes := h.scopes
  have hlexeme := ht.lexeme
  unfold Walk.declare
  rw [Unclaimed] at hnew
  generalize hs : w.scopes = as, hs' : w'.scopes = as' at hscopes hnew
  cases hscopes with
  | nil => exact h
  | @cons mark marks a a' as as' ha hrest =>
    have hc : a.contains t.lexeme = false := hnew a rfl
    have hc' : a'.contains t'.lexeme = false := by
      rw [hlexeme]
      exact (ha.contains _).trans hc
    simp only [hc, hc', Bool.false_eq_true, if_false]
    rw [hlexeme]
    exact ⟨.cons (ha.insert ht.fresh _) hrest, h.found, h.clean⟩

/-- A name is declared and can be used at once. -/
theorem bind {t t' : Token} (ht : r.Tok (marks.headD false) t t') (hnew : Unclaimed t.lexeme w) :
    WalkRenamed r marks (w.bind t) (w'.bind t') := by
  rw [Walk.bind, Walk.bind, ht.lexeme]
  exact (h.declare ht hnew).define ht.fresh

/-- The same distance is recorded for an occurrence that has the name of its declaration. -/
theorem locate {o o' : Ref} (hid : o'.id = o.id) (hfresh : o.name.lexeme ≠ r.new)
    (hname : o'.name.lexeme = r.name (markAt marks (w.distance? o.name.lexeme)) o.name.lexeme) :
    WalkRenamed r marks (w.locate o) (w'.locate o') := by
  have hdistance : w'.distance? o'.name.lexeme = w.distance? o.name.lexeme := by
    rw [hname]
    exact (h.scopes.find hfresh).1
  rw [Walk.locate, Walk.locate, hdistance, hid]
  cases w.distance? o.name.lexeme with
  | none => exact h
  | some distance => exact ⟨h.scopes, congrArg (·.insert o.id distance) h.found, h.clean⟩

omit h in
/-- What is recorded of an occurrence says under which name it stands. -/
theorem refs_name {o o' : Ref} (hr : r.Refs marks o o') (hrecorded : Recorded r.found w o) :
    o'.name.lexeme = r.name (markAt marks (w.distance? o.name.lexeme)) o.name.lexeme := by
  rw [hr.token.lexeme, ← hrecorded]
  rfl

/-- The name is not in its own initializer, in neither program, and is located in both. -/
theorem use {o o' : Ref} (hr : r.Refs marks o o') (hrecorded : Recorded r.found w o)
    (hclean : (w.use o).problems = #[]) : WalkRenamed r marks (w.use o) (w'.use o') := by
  have hname := refs_name hr hrecorded
  have hlocate := h.locate hr.id hr.fresh hname
  have hfind : w'.scopes.head?.bind (·.get? o'.name.lexeme) = w.scopes.head?.bind (·.get? o.name.lexeme) := by
    rw [hname]
    exact (h.scopes.find hr.fresh).2
  have hown : w'.inOwnInitializer o'.name.lexeme = w.inOwnInitializer o.name.lexeme := by
    rw [Walk.inOwnInitializer_eq, hfind, Walk.inOwnInitializer_eq]
  -- It would have been reported.
  have hnot : w.inOwnInitializer o.name.lexeme = false := by
    refine Bool.eq_false_iff.mpr fun hyes => ?_
    rw [Walk.use, if_pos hyes] at hclean
    exact Walk.report_problems _ _ w ((Effect.locate o _).clean hclean)
  have huse : w.use o = w.locate o := by rw [Walk.use, if_neg (Bool.eq_false_iff.mp hnot)]
  have huse' : w'.use o' = w'.locate o' := by rw [Walk.use, if_neg (Bool.eq_false_iff.mp (hown.trans hnot))]
  rw [huse, huse']
  exact hlocate

/-- The superclass is none that the renaming makes the class itself. -/
theorem useSuperclass {t : Token} {o o' : Ref} (ht : r.Tok (marks.headD false) t t) (hr : r.Refs marks o o')
    (hrecorded : Recorded r.found w o) (hne : t.lexeme ≠ o.name.lexeme)
    (hclean : (w.useSuperclass t o).problems = #[]) :
    WalkRenamed r marks (w.useSuperclass t o) (w'.useSuperclass t o') := by
  have hne' : o'.name.lexeme ≠ t.lexeme := by
    rw [hr.token.lexeme]
    -- A class that is called like the renamed variable is another name now, and any other is what it was.
    by_cases hold : o.name.lexeme = r.old
    · cases r.meant marks o with
      | false => exact hne.symm
      | true =>
        rw [hold]
        show Equiv.swap r.old r.new r.old ≠ t.lexeme
        rw [Equiv.swap_apply_left]
        exact ht.fresh.symm
    · rw [r.name_of_ne _ hold hr.fresh]
      exact hne.symm
  rw [Walk.useSuperclass, if_neg hne.symm] at hclean ⊢
  rw [Walk.useSuperclass, if_neg hne']
  exact h.use hr hrecorded hclean

/-- A `return` has no name. -/
theorem checkReturn {body : BodyKind} {keyword : Token} {hasValue : Bool}
    (hclean : (w.checkReturn body keyword hasValue).problems = #[]) :
    WalkRenamed r marks (w.checkReturn body keyword hasValue) (w'.checkReturn body keyword hasValue) := by
  cases body with
  | topLevel => exact absurd hclean (Walk.report_problems _ _ w)
  | initializer =>
    cases hasValue with
    | true => exact absurd hclean (Walk.report_problems _ _ w)
    | false => exact h
  | function | method => exact h

/-- The scopes of a class are not marked, and `this` and `super` are not renamed. -/
theorem enterClass (hp : r.Plain) (extending : Bool) :
    WalkRenamed r (classMarks extending ++ marks) (w.enterClass extending) (w'.enterClass extending) := by
  have hthis : ∀ {marks : List Bool} {w w' : Walk}, WalkRenamed r marks w w' →
      WalkRenamed r (false :: marks) (w.enter.define "this") (w'.enter.define "this") :=
    fun h => (h.enter false).define hp.this.2.symm
  cases extending with
  | true => exact hthis ((h.enter false).define hp.super.2.symm)
  | false => exact hthis h

omit h in
/-- Its scopes are left on both sides. -/
theorem leaveClass {extending : Bool} (h : WalkRenamed r (classMarks extending ++ marks) w w') :
    WalkRenamed r marks (w.leaveClass extending) (w'.leaveClass extending) := by
  cases extending with
  | true => exact h.leave.leave
  | false => exact h.leave

omit h in
/-- By induction on the parameters, none of which repeats another. -/
theorem binds {mark : Bool} (h : WalkRenamed r (mark :: marks) w w') {params params' : List Token}
    (hp : List.Forall₂ (r.Tok mark) params params')
    (hclean : (params.foldl (fun w param => w.bind param) w).problems = #[]) :
    WalkRenamed r (mark :: marks) (params.foldl (fun w param => w.bind param) w)
      (params'.foldl (fun w param => w.bind param) w') := by
  induction hp generalizing w w' with
  | nil => exact h
  | cons ht _ ih =>
    rw [List.foldl_cons] at hclean
    have hnew := Walk.unclaimed_of_bind ((Effect.binds _ _).clean hclean)
    have hmark : r.Tok ((mark :: marks).headD false) _ _ := ht
    exact ih (h.bind hmark hnew) hclean

end Steps

end WalkRenamed

/-- Nothing has been reported when the walk comes to a settled site. -/
theorem Scope.Settled.walk_clean {R : Resolution} {p : Site} (h : Settled R p) : p.walk.problems = #[] := by
  obtain ⟨is, h⟩ := h
  exact (effect_of_formed h.formed p.ctx p.walk).clean h.clean

/-- **The walk over a renamed phrase finds the same distances and reports nothing.** -/
theorem walk_renamed {r : Renaming} (hplain : r.Plain) {marks : List Bool} {p q : Phrase}
    (h : Renamed r marks p q) {ctx : Context} {w w' : Walk} {ls : List Layer}
    (hs : Settled r.found ⟨⟨ctx, w, p⟩, ls⟩) (hw : WalkRenamed r marks w w') :
    WalkRenamed r marks (p.walk ctx w) (q.walk ctx w') := by
  induction h generalizing ctx w w' ls with
  | literal | noExprs | breakLoop | noStmts | noMethods => exact hw
  | grouping _ ih => exact ih (hs.part .grouping) hw
  | unary _ ih => exact ih (hs.part .operand) hw
  | binary _ _ iha ihb => exact ihb (hs.part .right) (iha (hs.part .left) hw)
  | logical _ _ iha ihb => exact ihb (hs.part .rightLogical) (iha (hs.part .leftLogical) hw)
  | ternary _ _ _ ihc iht ihe =>
    exact ihe (hs.part .elseValue) (iht (hs.part .thenValue) (ihc (hs.part .condition) hw))
  | name hr =>
    obtain ⟨is, hsits⟩ := hs
    exact hw.use hr (Settled.variable ⟨is, hsits⟩).1 hsits.clean
  | assign hr _ ih =>
    have hvalue := ih (hs.part .assigned) hw
    obtain ⟨hrecorded, -⟩ := hs.assign
    -- The value leaves the scopes as they are.
    have hscopes := (hs.part .assigned).scopes trivial
    have hrecorded' : Recorded r.found (walkExpr ctx _ w) _ :=
      hrecorded.trans (Walk.distance?_of_scopes hscopes _).symm
    exact hvalue.locate hr.id hr.fresh (WalkRenamed.refs_name hr hrecorded')
  | call _ _ ihc ihes => exact ihes (hs.part .arguments) (ihc (hs.part .callee) hw)
  | get _ ih => exact ih (hs.part .object) hw
  | set _ _ iho ihe => exact ihe (hs.part .field) (iho (hs.part .target) hw)
  | lambda _ ih => exact ih (hs.part .lambda) hw
  | @this marks ref =>
    obtain ⟨-, hname, howner⟩ := hs.this
    have hlocate : WalkRenamed r marks (w.locate ref) (w'.locate ref) := by
      refine hw.locate rfl (hname ▸ hplain.this.2.symm) ?_
      rw [hname, hplain.name_this]
    show WalkRenamed r marks (w.useThis ctx.owner ref) (w'.useThis ctx.owner ref)
    cases ho : ctx.owner with
    | outside => exact absurd ho howner
    | plain | subclass => exact hlocate
  | @super marks ref method =>
    obtain ⟨-, hname, howner⟩ := hs.super
    show WalkRenamed r marks (w.useSuper ctx.owner ref) (w'.useSuper ctx.owner ref)
    rw [howner]
    refine hw.locate rfl (hname ▸ hplain.super.2.symm) ?_
    rw [hname, hplain.name_super]
  | exprs _ _ ihe ihes => exact ihes (hs.part .otherExprs) (ihe (hs.part .firstExpr) hw)
  | expression _ ih => exact ih (hs.part .expression) hw
  | value _ ih => exact ih (hs.part .value) hw
  | @unset marks name name' ht =>
    show WalkRenamed r marks ((w.declare name).define _) ((w'.declare name').define _)
    rw [ht.lexeme]
    exact (hw.declare ht hs.varDecl.2.1).define ht.fresh
  | @initialized marks name e name' e' ht _ ih =>
    show WalkRenamed r marks ((walkExpr ctx e (w.declare name)).define _)
      ((walkExpr ctx e' (w'.declare name')).define _)
    rw [ht.lexeme]
    exact (ih (hs.part .initializer) (hw.declare ht hs.varDecl.2.1)).define ht.fresh
  | block _ ih => exact (ih (hs.part .block) (hw.enter _)).leave
  | ifOnly _ _ ihc iht => exact iht (hs.part .thenBranch) (ihc (hs.part .decision) hw)
  | ifElse _ _ _ ihc iht ihe =>
    exact ihe (hs.part .elseBranch) (iht (hs.part .thenBranch) (ihc (hs.part .decision) hw))
  | whileLoop _ _ ihc ihb => exact ihb (hs.part .round) (ihc (hs.part .test) hw)
  | @funcDecl marks d d' ht hd ih =>
    obtain ⟨name, hname, -, hnew, -⟩ := hs.funcDecl
    have hname' := hd.function_name.trans hname
    have hinner := hs.part .declared
    rw [hname] at ht hinner
    have hbody := ih hinner (hw.bind ht hnew)
    show WalkRenamed r marks (walkFunction ctx .function d (d.name.elim w w.bind))
      (walkFunction ctx .function d' (d'.name.elim w' w'.bind))
    rw [hname, hname']
    exact hbody
  | @classDecl marks name ref ds ref' ds' ht hr _ ih =>
    have hmembers := hs.part .members
    obtain ⟨-, hnew, -⟩ := hs.classDecl
    have hclean : (enterHeader name ref w).problems = #[] :=
      (Effect.enterClass _ _).clean hmembers.walk_clean
    have hbound := hw.bind ht hnew
    have hheader : WalkRenamed r marks (enterHeader name ref w) (enterHeader name ref' w') := by
      cases hr with
      | none => exact hbound
      | some hr =>
        obtain ⟨hrecorded, -, hne⟩ := hs.superclass
        have hrecorded' := hrecorded.trans ((Claims.bind hnew).distance? hne).symm
        exact hbound.useSuperclass ht hr hrecorded' hne hclean
    have hsome : ref'.isSome = ref.isSome := by cases hr <;> rfl
    have hbehind := (ih hmembers (hheader.enterClass hplain ref.isSome)).leaveClass
    show WalkRenamed r marks _ ((walkMethods (classContext ctx ref'.isSome) ds' _).leaveClass ref'.isSome)
    rw [hsome]
    exact hbehind
  | returned =>
    obtain ⟨is, hsits⟩ := hs
    exact hw.checkReturn hsits.clean
  | returnedValue _ ih =>
    have hinner := hs.part .returned
    exact ih hinner (hw.checkReturn hinner.walk_clean)
  | stmts _ _ ihs ihss => exact ihss (hs.part .otherStmts) (ihs (hs.part .firstStmt) hw)
  | @function marks mark kind _ _ params body params' body' hparams _ ih =>
    exact (ih (hs.part .body) ((hw.enter mark).binds hparams hs.params.2)).leave
  | @methods marks d ds d' ds' hd _ ihd ihds =>
    show WalkRenamed r marks _ (walkMethods ctx ds' (walkFunction ctx (methodKind d') d' w'))
    rw [hd.methodKind_eq]
    exact ihds (hs.part .otherMethods) (ihd (hs.part .firstMethod) hw)

/-- **A renamed program is accepted, with the same distances.** -/
theorem resolve_renamed {r : Renaming} (hplain : r.Plain) {ss ss' : List Stmt}
    (h : Renamed r [] (.stmts ss) (.stmts ss')) (hs : Settled r.found (.program ss)) :
    (resolve ss').resolution = (resolve ss).resolution ∧ (resolve ss').diagnostics = [] := by
  have hwalk := walk_renamed hplain h hs (.start r)
  exact ⟨hwalk.found, Array.toList_eq_nil_iff.mpr hwalk.clean⟩

end Lox
