import Lox.Proofs.Copies.Trees
import Lox.Proofs.Scope.Walks

/-!
  Matching the names of copies.

  The walks over a phrase and over a copy of it find the same distances for occurrences that stand for
  each other, and report the same (`walk_copies`).

  A walk sees names, not tokens: tokens that stand for each other have the same text, so the open scopes
  are the same on both sides at every moment (`WalkCopy.scopes`).  Only what is recorded goes by numbers,
  and there it matters that a number stands for one other at most (`Likeness.single`): what is recorded
  for an occurrence must not show up for any other (`WalkCopy.locate`).

  There is one lemma for each step of the walk, and `walk_copies` follows the phrase with them.  The order
  is that of the walk: a name is bound before the body of its function and behind its initializer, and the
  header of a class comes before its members.
-/

namespace Lox

open Scope

/-- The walks have open scopes with the same names; what they have found and reported is the same. -/
structure WalkCopy (K : Likeness) (w w' : Walk) : Prop where
  scopes : w'.scopes = w.scopes
  found : ∀ i i', K.number i i' → w'.found[i']? = w.found[i]?
  problems : List.Forall₂ (Diagnostic.Like K) w.problems.toList w'.problems.toList

namespace WalkCopy

variable {K : Likeness} {w w' : Walk}

/-- Before anything has been walked over. -/
theorem start (K : Likeness) : WalkCopy K .start .start := ⟨rfl, fun _ _ _ => rfl, .nil⟩

section Steps

variable (h : WalkCopy K w w')
include h

/-- The same fault is reported, at tokens that stand for each other. -/
theorem report {t t' : Token} (ht : K.token t t') (fault : ScopingFault) :
    WalkCopy K (w.report t fault) (w'.report t' fault) := by
  refine { h with problems := ?_ }
  rw [Walk.report, Walk.report, Array.toList_push, Array.toList_push]
  exact List.rel_append h.problems (.cons (.scoping ht) .nil)

/-- A change of the scopes that looks at nothing else. -/
theorem change {scopes scopes' : List Scope} (hs : scopes' = scopes) :
    WalkCopy K { w with scopes := scopes } { w' with scopes := scopes' } :=
  ⟨hs, h.found, h.problems⟩

/-- A scope is opened on both sides. -/
theorem enter : WalkCopy K w.enter w'.enter := h.change (by rw [h.scopes])

/-- A scope is closed on both sides. -/
theorem leave : WalkCopy K w.leave w'.leave := h.change (by rw [h.scopes])

/-- The name may be used from here on. -/
theorem define (name : String) : WalkCopy K (w.define name) (w'.define name) := by
  rw [Walk.define, Walk.define, h.scopes]
  cases w.scopes with
  | nil => exact h
  | cons scope outer => exact h.change rfl

/-- A name that the innermost scope has already is reported. -/
theorem declare {t t' : Token} (ht : K.token t t') : WalkCopy K (w.declare t) (w'.declare t') := by
  rw [Walk.declare, Walk.declare, h.scopes, K.lexeme ht]
  cases w.scopes with
  | nil => exact h
  | cons scope outer =>
    dsimp only
    split
    · exact h.report ht _
    · exact h.change rfl

/-- A name is declared, and may be used at once. -/
theorem bind {t t' : Token} (ht : K.token t t') : WalkCopy K (w.bind t) (w'.bind t') := by
  rw [Walk.bind, Walk.bind, K.lexeme ht]
  exact (h.declare ht).define _

/-- The distance that is recorded is the same, and concerns occurrences that stand for each other. -/
theorem locate {r r' : Ref} (hr : K.Refs r r') : WalkCopy K (w.locate r) (w'.locate r') := by
  have hdistance : w'.distance? r'.name.lexeme = w.distance? r.name.lexeme := by
    rw [Walk.distance?, h.scopes, K.lexeme hr.token, Walk.distance?]
  rw [Walk.locate, Walk.locate, hdistance]
  cases w.distance? r.name.lexeme with
  | none => exact h
  | some distance =>
    refine { h with found := fun i i' hi => ?_ }
    have hid : r.id = i ↔ r'.id = i' := K.single hr.number hi
    simp only [Std.TreeMap.getElem?_insert, Nat.compare_eq_eq, hid, h.found i i' hi]

/-- A name that is used in its own initializer is reported, and located all the same. -/
theorem use {r r' : Ref} (hr : K.Refs r r') : WalkCopy K (w.use r) (w'.use r') := by
  have hown : w'.inOwnInitializer r'.name.lexeme = w.inOwnInitializer r.name.lexeme := by
    rw [Walk.inOwnInitializer, h.scopes, K.lexeme hr.token, Walk.inOwnInitializer]
  rw [Walk.use, Walk.use, hown]
  split
  · exact (h.report hr.token _).locate hr
  · exact h.locate hr

/-- Outside of classes `this` is reported, and not located. -/
theorem useThis (owner : ClassKind) {r r' : Ref} (hr : K.Refs r r') :
    WalkCopy K (w.useThis owner r) (w'.useThis owner r') := by
  cases owner with
  | outside => exact h.report hr.token _
  | plain | subclass => exact h.locate hr

/-- Without a superclass `super` is reported, and not located. -/
theorem useSuper (owner : ClassKind) {r r' : Ref} (hr : K.Refs r r') :
    WalkCopy K (w.useSuper owner r) (w'.useSuper owner r') := by
  cases owner with
  | outside | plain => exact h.report hr.token _
  | subclass => exact h.locate hr

/-- A class that extends itself is reported, and the name is used all the same. -/
theorem useSuperclass {t t' : Token} (ht : K.token t t') {r r' : Ref} (hr : K.Refs r r') :
    WalkCopy K (w.useSuperclass t r) (w'.useSuperclass t' r') := by
  rw [Walk.useSuperclass, Walk.useSuperclass, K.lexeme ht, K.lexeme hr.token]
  split
  · exact (h.report hr.token _).use hr
  · exact h.use hr

/-- A `return` at top level is reported, and one with a value in an initializer. -/
theorem checkReturn (body : BodyKind) {t t' : Token} (ht : K.token t t') (hasValue : Bool) :
    WalkCopy K (w.checkReturn body t hasValue) (w'.checkReturn body t' hasValue) := by
  cases body with
  | topLevel => exact h.report ht _
  | initializer =>
    cases hasValue with
    | true => exact h.report ht _
    | false => exact h
  | function | method => exact h

/-- The scopes of `super`, if the class extends another, and of `this`. -/
theorem enterClass (extending : Bool) : WalkCopy K (w.enterClass extending) (w'.enterClass extending) := by
  cases extending with
  | true => exact (h.enter.define _).enter.define _
  | false => exact h.enter.define _

/-- As many are closed. -/
theorem leaveClass (extending : Bool) : WalkCopy K (w.leaveClass extending) (w'.leaveClass extending) := by
  cases extending with
  | true => exact h.leave.leave
  | false => exact h.leave

/-- Parameters are bound from the first to the last, so one that is there twice is reported twice. -/
theorem binds {params params' : List Token} (hp : List.Forall₂ K.token params params') :
    WalkCopy K (params.foldl (fun w param => w.bind param) w)
      (params'.foldl (fun w param => w.bind param) w') := by
  induction hp generalizing w w' with
  | nil => exact h
  | cons ht _ ih => exact ih (h.bind ht)

end Steps

end WalkCopy

/-- **The walk over a copy finds and reports the same.** -/
theorem walk_copies {K : Likeness} {p q : Phrase} (h : Copy K p q) (ctx : Context) {w w' : Walk}
    (hw : WalkCopy K w w') : WalkCopy K (p.walk ctx w) (q.walk ctx w') := by
  induction h generalizing ctx w w' with
  | literal | noExprs | breakLoop _ | noStmts | noMethods => exact hw
  | grouping _ ih | expression _ ih | value _ ih => exact ih ctx hw
  | unary _ _ ih => exact ih ctx hw
  | binary _ _ _ ihl ihr | logical _ _ _ ihl ihr => exact ihr ctx (ihl ctx hw)
  | ternary _ _ _ ihc iht ihe => exact ihe ctx (iht ctx (ihc ctx hw))
  | name hr => exact hw.use hr
  | assign hr _ ih => exact (ih ctx hw).locate hr
  | call _ _ _ ihc ihes => exact ihes ctx (ihc ctx hw)
  | get _ _ ih => exact ih ctx hw
  | set _ _ _ iho ihe => exact ihe ctx (iho ctx hw)
  | lambda _ ih => exact ih ctx hw
  | this hr => exact hw.useThis _ hr
  | super hr _ => exact hw.useSuper _ hr
  | exprs _ _ ihe ihes => exact ihes ctx (ihe ctx hw)
  | unset ht =>
    have hname := K.lexeme ht
    show WalkCopy K ((w.declare _).define _) ((w'.declare _).define _)
    rw [hname]
    exact (hw.declare ht).define _
  | initialized ht _ ih =>
    have hname := K.lexeme ht
    show WalkCopy K ((walkExpr ctx _ (w.declare _)).define _) ((walkExpr ctx _ (w'.declare _)).define _)
    rw [hname]
    exact (ih ctx (hw.declare ht)).define _
  | block _ ih => exact (ih ctx hw.enter).leave
  | ifOnly _ _ ihc iht => exact iht ctx (ihc ctx hw)
  | ifElse _ _ _ ihc iht ihe => exact ihe ctx (iht ctx (ihc ctx hw))
  | whileLoop _ _ ihc ihb => exact ihb ctx (ihc ctx hw)
  | @funcDecl d d' hd ih =>
    -- The name is bound before the body, in which it may be used.
    have hname := hd.function_name
    have hbound : WalkCopy K (d.name.elim w w.bind) (d'.name.elim w' w'.bind) := by
      generalize d.name = name, d'.name = name' at hname
      cases hname with
      | none => exact hw
      | some ht => exact hw.bind ht
    exact ih ctx hbound
  | @classDecl name name' ref ref' ds ds' ht hr _ ih =>
    have hheader : WalkCopy K (ref.elim (w.bind name) fun r => (w.bind name).useSuperclass name r)
        (ref'.elim (w'.bind name') fun r => (w'.bind name').useSuperclass name' r) := by
      cases hr with
      | none => exact hw.bind ht
      | some hr => exact (hw.bind ht).useSuperclass ht hr
    -- Whether there is a superclass decides on the scopes that the members get.
    have hsome : ref'.isSome = ref.isSome := by cases hr <;> rfl
    have hmembers := (ih ⟨ctx.body, if ref.isSome then .subclass else .plain⟩
      (hheader.enterClass ref.isSome)).leaveClass ref.isSome
    show WalkCopy K _ ((walkMethods ⟨ctx.body, if ref'.isSome then .subclass else .plain⟩ ds' _).leaveClass _)
    rw [hsome]
    exact hmembers
  | returned ht => exact hw.checkReturn _ ht _
  | returnedValue ht _ ih => exact ih ctx (hw.checkReturn _ ht _)
  | stmts _ _ ihs ihss => exact ihss ctx (ihs ctx hw)
  | @function kind _ _ _ _ _ _ _ _ hname hkeyword hparams _ ih =>
    exact (ih ⟨kind, ctx.owner⟩ (hw.enter.binds hparams)).leave
  | @methods d d' ds ds' hd _ ihd ihds =>
    show WalkCopy K _ (walkMethods ctx ds' (walkFunction ctx (methodKind d') d' w'))
    rw [hd.methodKind_eq]
    exact ihds ctx (ihd ctx hw)

/-- What matching names gives for a copy. -/
structure ResolvedCopy (K : Likeness) (r r' : Resolved) : Prop where
  resolution : ∀ i i', K.number i i' → r'.resolution[i']? = r.resolution[i]?
  diagnostics : List.Forall₂ (Diagnostic.Like K) r.diagnostics r'.diagnostics

/-- Matching the names of a whole program. -/
theorem resolve_copies {K : Likeness} {ss ss' : List Stmt} (h : Copy K (.stmts ss) (.stmts ss')) :
    ResolvedCopy K (resolve ss) (resolve ss') :=
  have hwalk := walk_copies h .topLevel (.start K)
  ⟨hwalk.found, hwalk.problems⟩

end Lox
