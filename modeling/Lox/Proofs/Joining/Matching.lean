import Lox.Proofs.Copies.Matching
import Lox.Proofs.Scope.Programs

/-!
  Matching the names of two programs at once.

  At the top level no scope is open, so a walk over a second program begins as if there were no first one: what
  it knows is the same but for what has been found, and it has reported nothing.  The two walks over the second
  program, with and without the first before it, go abreast (`walk_copies`).

  So it finds and reports the same (`resolve_join`).  Neither program finds anything about an occurrence of the
  other: the numbers of the first lie below those of the second, so that what is found about an occurrence in
  both together comes from the one that it belongs to.
-/

namespace Lox

open Scope

/-- The numbers from a bound on stand for themselves. -/
def Likeness.above (bound : Nat) : Likeness :=
  sameTokens (fun i i' => bound ≤ i ∧ i' = i) fun hi hj => by rw [hi.2, hj.2]

/-- A walk over two programs goes over the one and then over the other. -/
theorem walkStmts_append (ctx : Context) (ss ss' : List Stmt) (w : Walk) :
    walkStmts ctx (ss ++ ss') w = walkStmts ctx ss' (walkStmts ctx ss w) := by
  induction ss generalizing w with
  | nil => rfl
  | cons s ss ih => exact ih (walkStmt ctx s w)

/-- Behind a program no scope is open. -/
theorem scopes_behind {program : List Stmt} {is : List Nat} (h : Formed (.stmts program) is) :
    (walkStmts .topLevel program .start).scopes = [] := by
  have hgrown : Grown [] (walkStmts .topLevel program .start).scopes :=
    (growth_of_formed h .topLevel .start).1
  generalize (walkStmts .topLevel program .start).scopes = scopes at hgrown
  cases hgrown
  rfl

/-- **Two programs are matched as one**, if nothing is reported about them and the numbers of the second
    are higher. -/
theorem resolve_join {p q : List Stmt} {is js : List Nat} {i j k : Nat} (hp : Formed (.stmts p) is)
    (hi : Numbered is i j) (hq : Formed (.stmts q) js) (hj : Numbered js j k)
    (hcopy : Copy (.above j) (.stmts q) (.stmts q)) (hclean : (resolve p).diagnostics = [])
    (hclean' : (resolve q).diagnostics = []) :
    (resolve (p ++ q)).diagnostics = [] ∧
    ∀ id : Nat, (resolve (p ++ q)).resolution[id]? =
      (resolve q).resolution[id]?.or (resolve p).resolution[id]? := by
  have hfound : ∀ id : Nat, j ≤ id → (resolve p).resolution[id]? = none := fun id hid =>
    resolve_found hp fun hmem => Nat.not_lt.mpr hid (hi.bounds id hmem).2
  -- Behind the first program no scope is open, nothing is reported, and nothing is found from `j` on.
  have hstart : WalkCopy (.above j) .start (walkStmts .topLevel p .start) := by
    refine ⟨scopes_behind hp, ?_, ?_⟩
    · rintro n n' ⟨hn, rfl⟩
      exact hfound _ hn
    · have hproblems : (walkStmts .topLevel p .start).problems.toList = [] := hclean
      rw [hproblems]
      exact .nil
  have hwalk := walk_copies hcopy .topLevel hstart
  have hjoined : resolve (p ++ q) =
      ⟨(walkStmts .topLevel q (walkStmts .topLevel p .start)).found,
        (walkStmts .topLevel q (walkStmts .topLevel p .start)).problems.toList⟩ := by
    rw [resolve, walkStmts_append]
  rw [hjoined]
  refine ⟨?_, fun id => ?_⟩
  · have hproblems : List.Forall₂ _ (resolve q).diagnostics _ := hwalk.problems
    rw [hclean'] at hproblems
    exact List.forall₂_nil_left_iff.mp hproblems
  -- An occurrence of the second program, about which the first finds nothing, or one of the first.
  · by_cases hid : j ≤ id
    · rw [hfound id hid, Option.or_none]
      exact hwalk.found id id ⟨hid, rfl⟩
    · have hnot : id ∉ js := fun hmem => hid (hj.bounds id hmem).1
      rw [resolve_found hq hnot, Option.none_or]
      exact (effect_of_formed hq .topLevel _).found id hnot

end Lox
