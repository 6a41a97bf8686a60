import Lox.Session
import Lox.Proofs.Grammar.Exact
import Lox.Proofs.Scope.Settled

/-!
  Programs, settled.

  This puts the parts of the theory together for a program as it comes out of the parser, and for one program
  after another, as a session reads them.

  * A program that was read without a fault is formed, and its occurrences of names are numbered from the first
    number on (`formed_of_read`).  In interactive mode the last statement may be a value without a semicolon,
    which is formed for itself.
  * If nothing is reported about its names either it is settled in any resolution that has what was found about
    them (`sits_program`), and with it every site that the walk comes to (`settled_of_visited`).
  * What is found about the next program concerns higher numbers, so that what is settled stays settled
    (`Sits.learn`); this is how functions of earlier submissions keep the distances of their bodies.
-/

namespace Lox

open Scope

/-! ## Reading -/

/-- By induction on the first statements. -/
theorem Formed.append {ss ss' : List Stmt} {is js : List Nat} (h : Formed (.stmts ss) is)
    (h' : Formed (.stmts ss') js) : Formed (.stmts (ss ++ ss')) (is ++ js) := by
  induction ss generalizing is with
  | nil =>
    cases h with
    | noStmts => exact h'
  | cons s ss ih =>
    cases h with
    | stmts hs hss =>
      rw [List.append_assoc]
      exact .stmts hs (ih hss)

/-- **A program that was read without a fault is formed.** -/
theorem formed_of_read {source : String} {interactive : Bool} {firstId : Nat}
    (h : (readProgram source interactive firstId).diagnostics = []) :
    ∃ is, Formed (.stmts (readProgram source interactive firstId).program) is ∧
      Numbered is firstId (readProgram source interactive firstId).nextId := by
  obtain ⟨-, hparse⟩ := List.append_eq_nil_iff.mp h
  obtain ⟨u, -, hnext, before, v, hbefore, hlast⟩ := Grammar.trails_of_parse hparse
  have hspelled : Grammar.Stand.Spelled ((tokensOf (items source)).takeWhile (!·.isEof), firstId) :=
    fun t ht => spelled_of_tokensOf (List.takeWhile_subset _ ht)
  obtain ⟨⟨is, hformed, hnumbered⟩, hrest⟩ := Grammar.formed_of_derives hbefore hspelled
  show ∃ is, Formed (.stmts (Grammar.parse (tokensOf (items source)) interactive firstId).program) is ∧
    Numbered is firstId (Grammar.parse (tokensOf (items source)) interactive firstId).nextId
  -- Everything was derived as statements, or the last thing is a value.
  rcases hlast with ⟨hds, rfl⟩ | ⟨d, hds, -, -, e, rfl, he⟩
  · rw [hds, ← hnext]
    exact ⟨is, hformed, hnumbered⟩
  · obtain ⟨⟨js, hvalue, hnumbered'⟩, -⟩ := Grammar.formed_of_derives he hrest
    rw [hds, ← hnext]
    have hone : Formed (.stmts [.value e]) (js ++ []) := .stmts (.value hvalue) .noStmts
    rw [List.append_nil] at hone
    exact ⟨is ++ js, hformed.append hone, hnumbered.append hnumbered'⟩

/-- Reading only goes on numbering, whatever it reports. -/
theorem readProgram_nextId_le (source : String) (interactive : Bool) (firstId : Nat) :
    firstId ≤ (readProgram source interactive firstId).nextId :=
  Grammar.parse_nextId_le _ _ _

/-! ## Matching names -/

namespace Scope

variable {program : List Stmt} {is : List Nat} {R : Resolution}

/-- Nothing is found about occurrences that are none of the program. -/
theorem resolve_found (h : Formed (.stmts program) is) {id : Nat} (hid : id ∉ is) :
    (resolve program).resolution[id]? = none :=
  (effect_of_formed h .topLevel .start).found id hid

/-- **A program about which nothing is reported is settled.** -/
theorem sits_program (h : Formed (.stmts program) is) {i j : Nat} (hn : Numbered is i j)
    (hclean : (resolve program).diagnostics = [])
    (hr : ∀ id ∈ is, R[id]? = (resolve program).resolution[id]?) :
    Sits R (.program program) is := by
  have hgrown : Grown [] (walkStmts .topLevel program .start).scopes :=
    (growth_of_formed h .topLevel .start).1
  have hcover : Covers (walkStmts .topLevel program .start).scopes [] := by
    generalize (walkStmts .topLevel program .start).scopes = scopes at hgrown
    cases hgrown with
    | nil => exact .nil
  exact ⟨h, Array.toList_eq_nil_iff.mp hclean, hn.nodup, fun _ _ => rfl, hr, .nil, hcover, .top⟩

/-- All sites of a settled program are settled. -/
theorem settled_of_visited (h : Settled R (.program program)) {p : Site} (hp : Visited program p) :
    Settled R p := by
  induction hp with
  | program => exact h
  | part _ hpart ih => exact ih.part hpart

/-! ## One program after another -/

/-- What has been learnt last counts. -/
theorem getElem?_learn (R R' : Resolution) (id : Nat) : (R ∪ R')[id]? = R'[id]?.or R[id]? :=
  Std.TreeMap.getElem?_union

/-- What is settled stays settled where nothing new is learnt about its occurrences. -/
theorem Sits.learn {R' : Resolution} {p : Site} (h : Sits R p is)
    (hr : ∀ id ∈ is, R'[id]? = none) : Sits (R ∪ R') p is := by
  refine { h with recorded := fun id hid => ?_ }
  rw [getElem?_learn, hr id hid, Option.none_or]
  exact h.recorded id hid

end Scope

end Lox
