import Lox.Proofs.Runs.Dealings
import Lox.Proofs.Scope.Programs
import Lox.Proofs.Scope.Recorded

/-!
  Loose jumps.

  A `break` jumps behind a loop, a `return` out of a function.  A jump is loose in a statement that it leaves
  when it is executed there (`Stmt.Loose`): it may stand within blocks and branches, and a `return` also within
  loops, but not within functions.

  Two stages see to it that no jump gets lost:

  * Reading: no `break` is loose in the body of a function or in a program.  `Held` says so of a tree, with the
    number of loops reduced to whether there is one; every derivation without a report gives such a tree
    (`held_of_derives`), since the grammar derives a `break` only in a loop.
  * Matching names: no `return` is loose in a program, because outside of functions it is reported
    (`Scope.Settled.unreturning`).

  All functions of a program are held as well, and a closure is made of one of them; so this is known of every
  body that is ever run.
-/

namespace Lox

/-- A statement that leaves others. -/
inductive Jump where
  | «break» | «return»
  deriving DecidableEq

/-- When the jump is executed within the statement it leaves it. -/
inductive Stmt.Loose : Jump → Stmt → Prop where
  | breakLoop {keyword} : Loose .break (.breakLoop keyword)
  | returnValue {keyword e} : Loose .return (.returnValue keyword e)
  | block {j s ss} : s ∈ ss → Loose j s → Loose j (.block ss)
  | thenBranch {j c t e} : Loose j t → Loose j (.ifElse c t e)
  | elseBranch {j c t e} : Loose j e → Loose j (.ifElse c t (some e))
  | whileLoop {c b} : Loose .return b → Loose .return (.whileLoop c b)

/-! ## Held breaks -/

mutual

/-- Every `break` in the functions of the expression has a loop of the same function around it. -/
def Expr.Held : Expr → Prop
  | .literal _ | .variable _ | .this _ | .super _ _ => True
  | .grouping e | .unary _ e | .assign _ e | .get e _ => e.Held
  | .binary l _ r | .logical l _ r => l.Held ∧ r.Held
  | .ternary c t e => c.Held ∧ t.Held ∧ e.Held
  | .call c _ es => c.Held ∧ heldExprs es
  | .set o _ e => o.Held ∧ e.Held
  | .lambda d => d.Held

/-- So it is in all of the expressions. -/
def heldExprs : List Expr → Prop
  | [] => True
  | e :: es => e.Held ∧ heldExprs es

/-- So it is in the expression, if there is one. -/
def heldOptional : Option Expr → Prop
  | none => True
  | some e => e.Held

/-- Every `break` in the statement has a loop of the same function around it, which may be one around
    the statement itself. -/
def Stmt.Held (inLoop : Bool) : Stmt → Prop
  | .expression e | .value e => e.Held
  | .varDecl _ e | .returnValue _ e => heldOptional e
  | .block ss => heldStmts inLoop ss
  | .ifElse c t e => c.Held ∧ t.Held inLoop ∧ heldElse inLoop e
  | .whileLoop c b => c.Held ∧ b.Held true
  | .breakLoop _ => inLoop = true
  | .funcDecl d => d.Held
  | .classDecl _ _ ds => heldMethods ds

/-- So it is in all of the statements. -/
def heldStmts (inLoop : Bool) : List Stmt → Prop
  | [] => True
  | s :: ss => s.Held inLoop ∧ heldStmts inLoop ss

/-- So it is in the branch, if there is one. -/
def heldElse (inLoop : Bool) : Option Stmt → Prop
  | none => True
  | some s => s.Held inLoop

/-- A function is in no loop of its own. -/
def FunctionDecl.Held : FunctionDecl → Prop
  | .mk _ _ _ body => heldStmts false body

/-- So it is in all of the methods. -/
def heldMethods : List FunctionDecl → Prop
  | [] => True
  | d :: ds => d.Held ∧ heldMethods ds

end

/-- So it is in the phrase. -/
def Phrase.Held (inLoop : Bool) : Phrase → Prop
  | .expr e => e.Held
  | .exprs es => heldExprs es
  | .stmt s => s.Held inLoop
  | .stmts ss => heldStmts inLoop ss
  | .function _ d => d.Held
  | .methods ds => heldMethods ds

/-- Statements are held if each of them is. -/
theorem heldStmts_iff {inLoop : Bool} {ss : List Stmt} :
    heldStmts inLoop ss ↔ ∀ s ∈ ss, s.Held inLoop := by
  induction ss with
  | nil => simp [heldStmts]
  | cons s ss ih => simp [heldStmts, ih]

/-- A loose `break` is held by a loop around the statement only. -/
theorem Stmt.Loose.inLoop {s : Stmt} (h : s.Loose .break) {inLoop : Bool} (hs : s.Held inLoop) :
    inLoop = true := by
  generalize hj : Jump.break = j at h
  induction h with
  | breakLoop => exact hs
  | returnValue => cases hj
  | block hmem _ ih => exact ih (heldStmts_iff.mp hs _ hmem) hj
  | thenBranch _ ih => exact ih hs.2.1 hj
  | elseBranch _ ih => exact ih hs.2.2 hj
  | whileLoop _ _ => cases hj

/-- What holds of a phrase holds of the phrases in it. -/
theorem Scope.Part.held {p q : Scope.Site} (h : Scope.Part p q) {inLoop : Bool}
    (hp : p.phrase.Held inLoop) : ∃ inLoop', q.phrase.Held inLoop' := by
  cases h with
  | round => exact ⟨true, hp.2⟩
  | @body _ _ _ d =>
    obtain ⟨name, keyword, params, body⟩ := d
    exact ⟨false, hp⟩
  | _ =>
    refine ⟨inLoop, ?_⟩
    simp_all [Phrase.Held, Expr.Held, heldExprs, heldOptional, Stmt.Held, heldStmts, heldElse,
      heldMethods]

namespace Grammar

/-- What is true of the trees that have been derived. -/
def Category.Held : (c : Category) → c.Tree → Prop
  | .expression, e | .ternary, e | .operators _, e | .unary, e | .call, e | .primary, e =>
    Expr.Held e
  | .optional, e => heldOptional e
  | .arguments, es | .argumentList, es => heldExprs es
  | .parameters, _ | .parameterList, _ | .superclass, _ => True
  | .routine _, d => FunctionDecl.Held d
  | .methods, ds => heldMethods ds
  | .initializer, s => ∀ inLoop, heldElse inLoop s
  | .varDecl, s => ∀ inLoop, Stmt.Held inLoop s
  | .conditional inLoop, s | .statement inLoop, s | .declaration inLoop, s => Stmt.Held inLoop s
  | .block inLoop, ss | .declarations inLoop, ss => heldStmts inLoop ss

/-- The loop around the body of a counting loop is that of its tree, whether or not there are blocks
    around it. -/
theorem held_loop {inLoop : Bool} {initializer : Option Stmt} {condition increment : Option Expr}
    {body : List Stmt} (hi : heldElse inLoop initializer) (hc : heldOptional condition)
    (hn : heldOptional increment) (hb : heldStmts true body) :
    (loopTree condition increment body initializer).Held inLoop := by
  have hcondition : (condition.getD (.literal (.bool true))).Held := by
    cases condition with
    | none => exact trivial
    | some c => exact hc
  -- The body of the loop and the increment behind it.
  have hround : (roundTree body increment).Held true := by
    cases increment with
    | none => exact hb
    | some e => exact ⟨hb, hn, trivial⟩
  cases initializer with
  | none => exact ⟨hcondition, hround⟩
  | some first => exact ⟨hi, ⟨hcondition, hround⟩, trivial⟩

/-- **In what has been derived every `break` is held by a loop**, but for one that the category has
    around it. -/
theorem held_of_derives {c : Category} {s u : Stand} {a : c.Tree} (h : Derives c s a u) :
    c.Held a := by
  induction h with
  | @operator tier _ _ _ _ _ _ _ _ _ _ _ ihl ihr => cases tier <;> exact ⟨ihl, ihr⟩
  | forLoop _ _ _ _ _ _ ihi ihc ihn ihb => exact held_loop (ihi _) ihc ihn ihb
  | varDecl _ ih => exact ih _
  | _ => simp_all [Category.Held, Expr.Held, heldExprs, heldOptional, Stmt.Held, heldStmts, heldElse,
      FunctionDecl.Held, heldMethods]

end Grammar

/-- In a program that was read without a fault every `break` is held. -/
theorem held_of_read {source : String} {interactive : Bool} {firstId : Nat}
    (h : (readProgram source interactive firstId).diagnostics = []) :
    heldStmts false (readProgram source interactive firstId).program := by
  obtain ⟨-, hparse⟩ := List.append_eq_nil_iff.mp h
  obtain ⟨u, -, -, before, v, hbefore, hlast⟩ := Grammar.trails_of_parse hparse
  have hheld : heldStmts false before := Grammar.held_of_derives hbefore
  show heldStmts false (Grammar.parse (tokensOf (items source)) interactive firstId).program
  rcases hlast with ⟨hds, -⟩ | ⟨d, hds, -, -, e, rfl, he⟩
  · rwa [hds]
  · rw [hds, heldStmts_iff]
    have hvalue : e.Held := Grammar.held_of_derives he
    intro s hs
    rcases List.mem_append.mp hs with hs | hs
    · exact heldStmts_iff.mp hheld s hs
    · rw [List.mem_singleton.mp hs]
      exact hvalue

namespace Scope

/-- In all functions that the walk over a program comes to every `break` is held. -/
theorem Visited.held {program : List Stmt} (h : heldStmts false program) {p : Site}
    (hp : Visited program p) : ∃ inLoop, p.phrase.Held inLoop := by
  induction hp with
  | program => exact ⟨false, h⟩
  | part _ hpart ih =>
    obtain ⟨inLoop, hheld⟩ := ih
    exact hpart.held hheld

/-! ## Returns -/

/-- Each of the statements is at a site of its own. -/
theorem Settled.member {R : Resolution} {ss : List Stmt} {s : Stmt} (h : s ∈ ss) {ctx : Context}
    {w : Walk} {ls : List Layer} (hs : Settled R ⟨⟨ctx, w, .stmts ss⟩, ls⟩) :
    ∃ w', Settled R ⟨⟨ctx, w', .stmt s⟩, ls⟩ := by
  induction ss generalizing w with
  | nil => cases h
  | cons first rest ih =>
    rcases List.mem_cons.mp h with rfl | h
    · exact ⟨w, hs.part .firstStmt⟩
    · exact ih h (hs.part .otherStmts)

/-- A `return` outside of functions is reported. -/
theorem Settled.returnValue {R : Resolution} {keyword : Token} {e : Option Expr} {ctx : Context}
    {w : Walk} {ls : List Layer} (h : Settled R ⟨⟨ctx, w, .stmt (.returnValue keyword e)⟩, ls⟩) :
    ctx.body ≠ .topLevel := by
  intro htop
  obtain ⟨is, h⟩ := h
  have hchecked : (w.checkReturn ctx.body keyword e.isSome).problems = #[] := by
    cases h.formed with
    | returned => exact h.clean
    | returnedValue he => exact (effect_of_formed he ctx _).clean h.clean
  rw [htop] at hchecked
  exact absurd hchecked (Walk.report_problems _ _ w)

/-- No `return` is loose in a statement outside of functions about which nothing is reported. -/
theorem Settled.unreturning {R : Resolution} {s : Stmt} (h : s.Loose .return) {ctx : Context}
    {w : Walk} {ls : List Layer} (hs : Settled R ⟨⟨ctx, w, .stmt s⟩, ls⟩) :
    ctx.body ≠ .topLevel := by
  generalize hj : Jump.return = j at h
  induction h generalizing w ls with
  | breakLoop => cases hj
  | returnValue => exact hs.returnValue
  | block hmem _ ih =>
    obtain ⟨w', hmember⟩ := (hs.part .block).member hmem
    exact ih hmember hj
  | thenBranch _ ih => exact ih (hs.part .thenBranch) hj
  | elseBranch _ ih => exact ih (hs.part .elseBranch) hj
  | whileLoop _ ih => exact ih (hs.part .round) hj

end Scope

end Lox
