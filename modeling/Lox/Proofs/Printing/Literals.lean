import Lox.Proofs.Counting.Reading
import Lox.Proofs.Grammar.Exact
import Lox.Proofs.Printing.Drawing
import Lox.Proofs.Printing.Nodes

/-!
  The constants of a source, as they are written and as they are printed.

  The constants of a program with counting loops can be taken down in two orders, which differ at its counting
  loops only (`LoopOrder`).

  1. As they are written they are the constants among the tokens of the source (`constants_writtenStmts`).  The
     tokens are those of the text of the tree (`Stmt.written`), in which nothing else is a constant.
  2. As the loops are lowered, with the increment behind the body and `true` for a condition that is left out,
     they are the constants in the printed outline, from top to bottom (`literalLabels_lowerStmts`).  In the
     outline a constant is a label with the word for constants (`isLiteral`), and the label of no other node
     begins with that word.
  3. Without a counting loop the two orders are one (`literalsOfStmts_lowered`).

  Each of the three is a mutual induction on the trees, with a lemma for each of their sorts.

  So in a printed program the constants stand in the order of the source, but for what is moved in counting
  loops (`literals_printed_in_order`); and there they are moved (`literals_printed_moved`).  That the labels are
  what stands on the lines of the printed text is `printedLiterals_on_lines`.
-/

namespace Lox

/-! ## The two orders

  Constants are listed twice, in the order in which they are written and in that in which the lowered tree has
  them.  The lists differ only where a counting loop has constants. -/

namespace Counting

/-- The order in which the parts of a counting loop are taken. -/
inductive LoopOrder where
  /-- As the loop is written: the increment before the body. -/
  | written
  /-- As the loop is lowered: the increment behind the body. -/
  | lowered

namespace LoopOrder

/-- The constants of the condition that is not written. -/
def noCondition : LoopOrder → List Literal
  | written => []
  | lowered => [.bool true]

/-- The constants of an increment and those of a body. -/
def round (increment body : List Literal) : LoopOrder → List Literal
  | written => increment ++ body
  | lowered => body ++ increment

end LoopOrder

variable (order : LoopOrder)

mutual

/-- The constants of the expression. -/
def Expr.literals : Expr → List Literal
  | .literal value => [value]
  | .grouping e | .unary _ e | .assign _ e | .get e _ => e.literals
  | .binary l _ r | .logical l _ r | .set l _ r => l.literals ++ r.literals
  | .ternary c t e => c.literals ++ t.literals ++ e.literals
  | .call callee _ arguments => callee.literals ++ literalsOfExprs arguments
  | .lambda text => text.literals
  | .variable _ | .this _ | .super _ _ => []

/-- The constants of the expressions. -/
def literalsOfExprs : List Expr → List Literal
  | [] => []
  | e :: es => e.literals ++ literalsOfExprs es

/-- The constants of the expression, if there is one. -/
def literalsOfOptional : Option Expr → List Literal
  | none => []
  | some e => e.literals

/-- The constants of the condition of a counting loop. -/
def literalsOfCondition : Option Expr → List Literal
  | none => order.noCondition
  | some e => e.literals

/-- The constants of the statement. -/
def Stmt.literals : Stmt → List Literal
  | .expression e | .value e => e.literals
  | .varDecl _ e | .returnValue _ e => literalsOfOptional e
  | .block body => literalsOfStmts body
  | .ifElse c t e => c.literals ++ t.literals ++ literalsOfBranch e
  | .whileLoop c b => c.literals ++ b.literals
  | .forLoop i c n body => literalsOfBranch i ++ literalsOfCondition c ++
    order.round (literalsOfOptional n) (literalsOfStmts body)
  | .breakLoop _ => []
  | .funcDecl text => text.literals
  | .classDecl _ _ methods => literalsOfMethods methods

/-- The constants of the statements. -/
def literalsOfStmts : List Stmt → List Literal
  | [] => []
  | s :: ss => s.literals ++ literalsOfStmts ss

/-- The constants of the statement, if there is one. -/
def literalsOfBranch : Option Stmt → List Literal
  | none => []
  | some s => s.literals

/-- The constants of the function. -/
def Function.literals : Function → List Literal
  | .mk _ _ _ body => literalsOfStmts body

/-- The constants of the methods. -/
def literalsOfMethods : List Function → List Literal
  | [] => []
  | f :: fs => f.literals ++ literalsOfMethods fs

end

/-! ## As they are written -/

/-- The constants among tokens of these kinds, in their order. -/
def constantsOf (kinds : List TokenKind) : List Literal := kinds.filterMap Grammar.constant?

/-- The constants of one text and then of another. -/
theorem constantsOf_append (ks ks' : List TokenKind) :
    constantsOf (ks ++ ks') = constantsOf ks ++ constantsOf ks' := List.filterMap_append

/-- A token that is no constant is passed over. -/
theorem constantsOf_cons {k : TokenKind} (h : Grammar.constant? k = none) (ks : List TokenKind) :
    constantsOf (k :: ks) = constantsOf ks := List.filterMap_cons_none h

theorem constantsOf_nil : constantsOf [] = [] := rfl

/-- A mark is no constant. -/
theorem constantsOf_mark (m : Mark) (ks : List TokenKind) : constantsOf (.mark m :: ks) = constantsOf ks := rfl

/-- A name is no constant. -/
theorem constantsOf_identifier (ks : List TokenKind) : constantsOf (.identifier :: ks) = constantsOf ks := rfl

/-- Three of the keywords are constants. -/
theorem constantsOf_keyword {k : Keyword} (hf : k ≠ .falseKw) (ht : k ≠ .trueKw) (hn : k ≠ .nilKw)
    (ks : List TokenKind) : constantsOf (.keyword k :: ks) = constantsOf ks := by
  refine constantsOf_cons ?_ ks
  cases k with
  | falseKw => exact absurd rfl hf
  | trueKw => exact absurd rfl ht
  | nilKw => exact absurd rfl hn
  | _ => rfl

/-- The commas between phrases are no constants. -/
theorem constantsOf_separated (phrases : List (List TokenKind)) :
    constantsOf (separated phrases) = phrases.flatMap constantsOf := by
  induction phrases with
  | nil => rfl
  | cons phrase rest ih =>
    cases rest with
    | nil => rw [separated, List.flatMap_singleton]
    | cons next rest =>
      rw [separated, constantsOf_append, constantsOf_cons rfl, ih]
      rfl

/-- The token of a constant stands for that constant. -/
theorem constant_literalKind (l : Literal) : Grammar.constant? (literalKind l) = some l := by
  cases l with
  | bool b => cases b <;> rfl
  | _ => rfl

section

attribute [local simp] constantsOf_append constantsOf_nil constantsOf_mark constantsOf_identifier
  constantsOf_keyword constantsOf_separated Expr.written Stmt.written Function.written Expr.literals
  Stmt.literals Function.literals

variable {P : String → Prop}

mutual

/-- By induction on the expression, with the phrase worded so that its operators are no constants. -/
theorem Expr.constants_written : ∀ e : Expr, Worded P (.expr e.lower) →
    constantsOf e.written = e.literals .written
  | .literal l, _ => by
    rw [Expr.written, constantsOf, List.filterMap_cons_some (constant_literalKind l)]
    rfl
  | .grouping e, .grouping h => by simp [e.constants_written h]
  | .unary op e, .unary ho h => by simp [constantsOf_cons ho.constant, e.constants_written h]
  | .binary l op r, .binary hl ho hr => by
    simp [constantsOf_cons ho.constant, l.constants_written hl, r.constants_written hr]
  | .logical l op r, .logical hl ho hr => by
    simp [constantsOf_cons ho.constant, l.constants_written hl, r.constants_written hr]
  | .ternary c t e, .ternary hc ht he => by
    simp [c.constants_written hc, t.constants_written ht, e.constants_written he]
  | .variable _, _ => rfl
  | .assign _ e, .assign _ h => by simp [e.constants_written h]
  | .call c _ es, .call hc _ hes => by simp [c.constants_written hc, constants_writtenExprs es hes]
  | .get o _, .get h _ => by simp [o.constants_written h]
  | .set o _ e, .set ho _ he => by simp [o.constants_written ho, e.constants_written he]
  | .lambda text, .lambda h => by simp [text.constants_written h]
  | .this _, _ => rfl
  | .super _ _, _ => rfl

theorem constants_writtenExprs : ∀ es : List Expr, (∀ e ∈ lowerExprs es, Worded P (.expr e)) →
    (writtenExprs es).flatMap constantsOf = literalsOfExprs .written es
  | [], _ => rfl
  | e :: es, h => by
    obtain ⟨he, hes⟩ := List.forall_mem_cons.mp h
    rw [writtenExprs, List.flatMap_cons, e.constants_written he, constants_writtenExprs es hes,
      literalsOfExprs]

theorem constants_writtenOptional : ∀ e : Option Expr, (∀ v ∈ lowerOptional e, Worded P (.expr v)) →
    constantsOf (writtenOptional e) = literalsOfOptional .written e
  | none, _ => rfl
  | some e, h => e.constants_written (h _ rfl)

/-- By induction on the statement; a counting loop has its clauses in the order in which they are written. -/
theorem Stmt.constants_written : ∀ s : Stmt, Worded P (.stmt s.lower) →
    constantsOf s.written = s.literals .written
  | .expression e, .expression h => by simp [e.constants_written h]
  | .value e, .value h => by simp [e.constants_written h]
  | .varDecl _ none, _ => rfl
  | .varDecl _ (some e), .varDecl _ h => by simp [e.constants_written (h _ rfl), literalsOfOptional]
  | .block body, .block h => by simp [constants_writtenStmts body h]
  | .ifElse c t none, .ifElse hc ht _ => by
    simp [c.constants_written hc, t.constants_written ht, literalsOfBranch]
  | .ifElse c t (some e), .ifElse hc ht he => by
    simp [c.constants_written hc, t.constants_written ht, e.constants_written (he _ rfl), literalsOfBranch]
  | .whileLoop c b, .whileLoop hc hb => by simp [c.constants_written hc, b.constants_written hb]
  | .forLoop i c n body, h => by
    rw [Stmt.lower, Grammar.countingLoop_block] at h
    obtain ⟨hi, hc, hn, hb⟩ := Grammar.parts_of_worded_loop h
    -- A condition that is left out is not written, and has no constant.
    have hcondition : constantsOf (writtenOptional c) = literalsOfCondition .written c := by
      rw [constants_writtenOptional c hc]
      cases c <;> rfl
    simp [constants_writtenInitializer i hi, hcondition, constants_writtenOptional n hn,
      constants_writtenStmts body hb, LoopOrder.round]
  | .breakLoop _, _ => rfl
  | .funcDecl text, .funcDecl h => by simp [text.constants_written h]
  | .classDecl _ none methods, .classDecl _ _ h => by simp [constants_writtenMethods methods h]
  | .classDecl _ (some _) methods, .classDecl _ _ h => by simp [constants_writtenMethods methods h]
  | .returnValue _ e, .returnValue _ h => by simp [constants_writtenOptional e h]

theorem constants_writtenStmts : ∀ ss : List Stmt, (∀ s ∈ lowerStmts ss, Worded P (.stmt s)) →
    constantsOf (writtenStmts ss) = literalsOfStmts .written ss
  | [], _ => rfl
  | s :: ss, h => by
    obtain ⟨hs, hss⟩ := List.forall_mem_cons.mp h
    rw [writtenStmts, constantsOf_append, s.constants_written hs, constants_writtenStmts ss hss,
      literalsOfStmts]

theorem constants_writtenInitializer : ∀ s : Option Stmt, (∀ v ∈ lowerBranch s, Worded P (.stmt v)) →
    constantsOf (writtenInitializer s) = literalsOfBranch .written s
  | none, _ => rfl
  | some s, h => s.constants_written (h _ rfl)

/-- The parameters of a function are no constants, and its body has those that it has. -/
theorem Function.constants_written : ∀ f : Function, Worded P (.function .function f.lower) →
    constantsOf f.written = f.literals .written
  | .mk none _ _ body, .function _ _ _ h => by simp [constants_writtenStmts body h]
  | .mk (some _) _ _ body, .function _ _ _ h => by simp [constants_writtenStmts body h]

theorem constants_writtenMethods : ∀ fs : List Function,
    (∀ d ∈ lowerMethods fs, Worded P (.function .function d)) →
      constantsOf (writtenMethods fs) = literalsOfMethods .written fs
  | [], _ => rfl
  | f :: fs, h => by
    obtain ⟨hf, hfs⟩ := List.forall_mem_cons.mp h
    rw [writtenMethods, constantsOf_append, f.constants_written hf, constants_writtenMethods fs hfs,
      literalsOfMethods]

end

end

end Counting

/-! ## As they are printed

  Labels of constants are recognized by their first word, and the tree below a node has its labels in preorder. -/

namespace Outline

mutual

/-- The labels from top to bottom. -/
def labels : Outline → List String
  | node label children => label :: labelsAll children

/-- The labels of trees that stand beside each other. -/
def labelsAll : List Outline → List String
  | [] => []
  | o :: os => o.labels ++ labelsAll os

end

mutual

/-- The labels of a tree are those of its nodes. -/
theorem labels_nodes : ∀ o : Outline, o.labels = o.nodes.map Prod.snd
  | node label children => congrArg (label :: ·) (labelsAll_nodes children)

/-- The labels of trees one below the other are those of their nodes. -/
theorem labelsAll_nodes : ∀ os : List Outline, labelsAll os = (nodesBelow os).map Prod.snd
  | [] => rfl
  | o :: os => by
    rw [labelsAll, labels_nodes o, labelsAll_nodes os, nodesBelow, List.map_append, List.map_map]
    rfl

end

/-- Whether the word of the label is that for a constant. -/
def isLiteral (label : String) : Bool := label.toList.takeWhile Char.isAlpha == "Literal".toList

/-- The labels of the constants, from top to bottom. -/
def literalLabels (os : List Outline) : List String := (labelsAll os).filter isLiteral

/-- The word of a label tells whether it is that of a constant. -/
theorem isLiteral_labelText {word : String} {detail : Option String} (h : isWord word = true) :
    isLiteral (labelText word detail) = (word == "Literal") := by
  rw [isLiteral, (span_labelText h detail).1, Bool.eq_iff_iff, beq_iff_eq, beq_iff_eq]
  exact String.toList_inj

theorem literalLabels_nil : literalLabels [] = [] := rfl

/-- The constants of the first tree and then of the others. -/
theorem literalLabels_cons (o : Outline) (os : List Outline) :
    literalLabels (o :: os) = literalLabels [o] ++ literalLabels os := by
  simp only [literalLabels, labelsAll, List.append_nil, List.filter_append]

theorem literalLabels_cons_cons (o o' : Outline) (os : List Outline) :
    literalLabels (o :: o' :: os) = literalLabels [o] ++ literalLabels (o' :: os) := literalLabels_cons o _

/-- A node that is no constant has those of its children. -/
theorem literalLabels_node {label : String} (h : isLiteral label = false) (children : List Outline) :
    literalLabels [node label children] = literalLabels children := by
  simp [literalLabels, labelsAll, labels, h]

end Outline

/-- The label of a constant. -/
def Literal.label (l : Literal) : String := "Literal " ++ l.outlineText

open Outline

/-- Below the node of an expression that is no constant are all its constants. -/
theorem Expr.literalLabels_outline {e : Expr} (h : ∀ l, e ≠ .literal l) :
    literalLabels [e.outline] = literalLabels e.children := by
  have hword : (e.word == "Literal") = false := by
    cases e with
    | literal l => exact absurd rfl (h l)
    | _ => simp [word]
  rw [outline_eq]
  exact literalLabels_node ((isLiteral_labelText e.isWord_word).trans hword) _

/-- A constant has itself. -/
theorem Expr.literalLabels_literal (l : Literal) : literalLabels [(Expr.literal l).outline] = [l.label] := by
  have hword : isWord "Literal" = true := by decide
  have hlabel : l.label = labelText "Literal" (some l.outlineText) :=
    (labelText_some "Literal" l.outlineText).symm
  have hliteral : isLiteral l.label = true := by rw [hlabel, isLiteral_labelText hword, beq_self_eq_true]
  exact List.filter_cons_of_pos hliteral

/-- A statement is no constant. -/
theorem Stmt.literalLabels_outline (s : Stmt) : literalLabels [s.outline] = literalLabels s.children := by
  have hword : (s.word == "Literal") = false := by
    cases s <;> simp [word]
  rw [outline_eq]
  exact literalLabels_node ((isLiteral_labelText s.isWord_word).trans hword) _

/-- A method is no constant. -/
theorem FunctionDecl.literalLabels_method (d : FunctionDecl) :
    literalLabels [d.outline "Method "] = literalLabels (Stmt.outlines d.body) := by
  have hword : isWord "Method" = true := by decide
  rw [method_eq]
  exact literalLabels_node ((isLiteral_labelText hword).trans (by decide)) _

section

attribute [local simp] Stmt.literalLabels_outline Stmt.children literalLabels_nil literalLabels_cons_cons

/-- **The constants of a loop that has been lowered**: those of its increment come last. -/
theorem literalLabels_loopTree (condition increment : Option Expr) (body : List Stmt)
    (initializer : Option Stmt) :
    literalLabels [(Grammar.loopTree condition increment body initializer).outline] =
      literalLabels (Stmt.optionalOutline initializer) ++
        literalLabels [(condition.getD (.literal (.bool true))).outline] ++
          (literalLabels (Stmt.outlines body) ++ literalLabels (Expr.optionalOutline increment)) := by
  have hround : literalLabels [(Grammar.roundTree body increment).outline] =
      literalLabels (Stmt.outlines body) ++ literalLabels (Expr.optionalOutline increment) := by
    cases increment with
    | none => simp [Grammar.roundTree, Expr.optionalOutline]
    | some e => simp [Grammar.roundTree, Stmt.outlines, Expr.optionalOutline]
  cases initializer with
  | none => simp [Grammar.loopTree, hround, Stmt.optionalOutline]
  | some first => simp [Grammar.loopTree, hround, Stmt.outlines, Stmt.optionalOutline]

end

namespace Counting

section

attribute [local simp] Expr.lower Stmt.lower Function.lower Expr.literals Stmt.literals Function.literals
  Lox.Expr.literalLabels_outline Lox.Expr.literalLabels_literal Lox.Stmt.literalLabels_outline
  Lox.Expr.children Lox.Stmt.children literalLabels_nil literalLabels_cons_cons

mutual

/-- By induction on the expression. -/
theorem Expr.literalLabels_lower : ∀ e : Expr,
    literalLabels [e.lower.outline] = (e.literals .lowered).map Literal.label
  | .literal l => Lox.Expr.literalLabels_literal l
  | .grouping e => by simp [e.literalLabels_lower]
  | .unary _ e => by simp [e.literalLabels_lower]
  | .binary l _ r => by simp [l.literalLabels_lower, r.literalLabels_lower]
  | .logical l _ r => by simp [l.literalLabels_lower, r.literalLabels_lower]
  | .ternary c t e => by simp [c.literalLabels_lower, t.literalLabels_lower, e.literalLabels_lower]
  | .variable _ => by simp
  | .assign _ e => by simp [e.literalLabels_lower]
  | .call c _ es => by
    simp [literalLabels_cons _ (Lox.Expr.outlines _), c.literalLabels_lower, literalLabels_lowerExprs es]
  | .get o _ => by simp [o.literalLabels_lower]
  | .set o _ e => by simp [o.literalLabels_lower, e.literalLabels_lower]
  | .lambda text => by simp [text.literalLabels_lower]
  | .this _ => by simp
  | .super _ _ => by simp

theorem literalLabels_lowerExprs : ∀ es : List Expr,
    literalLabels (Lox.Expr.outlines (lowerExprs es)) = (literalsOfExprs .lowered es).map Literal.label
  | [] => rfl
  | e :: es => by
    rw [lowerExprs, Lox.Expr.outlines, literalLabels_cons, e.literalLabels_lower,
      literalLabels_lowerExprs es, literalsOfExprs, List.map_append]

theorem literalLabels_lowerOptional : ∀ e : Option Expr,
    literalLabels (Lox.Expr.optionalOutline (lowerOptional e)) =
      (literalsOfOptional .lowered e).map Literal.label
  | none => rfl
  | some e => e.literalLabels_lower

/-- By induction on the statement; the tree of a counting loop is taken apart in `literalLabels_loopTree`. -/
theorem Stmt.literalLabels_lower : ∀ s : Stmt,
    literalLabels [s.lower.outline] = (s.literals .lowered).map Literal.label
  | .expression e => by simp [e.literalLabels_lower]
  | .value e => by simp [e.literalLabels_lower]
  | .varDecl _ e => by simp [literalLabels_lowerOptional e]
  | .block body => by simp [literalLabels_lowerStmts body]
  | .ifElse c t e => by
    simp [literalLabels_cons _ (Lox.Stmt.optionalOutline _), c.literalLabels_lower,
      t.literalLabels_lower, literalLabels_lowerBranch e]
  | .whileLoop c b => by simp [c.literalLabels_lower, b.literalLabels_lower]
  | .forLoop i c n body => by
    -- A condition that is left out is printed as a constant.
    have hcondition : literalLabels [((lowerOptional c).getD (.literal (.bool true))).outline] =
        (literalsOfCondition .lowered c).map Literal.label := by
      cases c with
      | none => exact Lox.Expr.literalLabels_literal _
      | some c => exact c.literalLabels_lower
    rw [Stmt.lower, Grammar.countingLoop_block, literalLabels_loopTree, hcondition]
    simp [literalLabels_lowerBranch i, literalLabels_lowerOptional n, literalLabels_lowerStmts body,
      LoopOrder.round]
  | .breakLoop _ => by simp
  | .funcDecl text => by simp [text.literalLabels_lower]
  | .classDecl _ _ methods => by simp [literalLabels_lowerMethods methods]
  | .returnValue _ e => by simp [literalLabels_lowerOptional e]

theorem literalLabels_lowerStmts : ∀ ss : List Stmt,
    literalLabels (Lox.Stmt.outlines (lowerStmts ss)) = (literalsOfStmts .lowered ss).map Literal.label
  | [] => rfl
  | s :: ss => by
    rw [lowerStmts, Lox.Stmt.outlines, literalLabels_cons, s.literalLabels_lower,
      literalLabels_lowerStmts ss, literalsOfStmts, List.map_append]

theorem literalLabels_lowerBranch : ∀ s : Option Stmt,
    literalLabels (Lox.Stmt.optionalOutline (lowerBranch s)) =
      (literalsOfBranch .lowered s).map Literal.label
  | none => rfl
  | some s => s.literalLabels_lower

/-- The constants of a function are those of its body. -/
theorem Function.literalLabels_lower : ∀ f : Function,
    literalLabels (Lox.Stmt.outlines f.lower.body) = (f.literals .lowered).map Literal.label
  | .mk _ _ _ body => literalLabels_lowerStmts body

theorem literalLabels_lowerMethods : ∀ fs : List Function,
    literalLabels (FunctionDecl.outlines (lowerMethods fs)) =
      (literalsOfMethods .lowered fs).map Literal.label
  | [] => rfl
  | f :: fs => by
    rw [lowerMethods, FunctionDecl.outlines, literalLabels_cons, FunctionDecl.literalLabels_method,
      f.literalLabels_lower, literalLabels_lowerMethods fs, literalsOfMethods, List.map_append]

end

end

/-! ## Without counting loops

  There the orders are the same. -/

/-- A keyword that is not among phrases with commas is in none of them. -/
theorem not_mem_separated {k : TokenKind} {phrase : List TokenKind} {rest : List (List TokenKind)}
    (h : k ∉ separated (phrase :: rest)) : k ∉ phrase ∧ k ∉ separated rest := by
  cases rest with
  | nil => exact ⟨h, List.not_mem_nil⟩
  | cons next rest =>
    rw [separated, List.mem_append, List.mem_cons, not_or, not_or] at h
    exact ⟨h.1, h.2.2⟩

section

attribute [local simp] Expr.written Stmt.written Function.written writtenInitializer Expr.literals
  Stmt.literals Function.literals

mutual

/-- Where no loop is counted there is one order. -/
theorem Expr.literals_lowered : ∀ e : Expr, .keyword .forKw ∉ e.written →
    e.literals .lowered = e.literals .written
  | .literal _, _ => rfl
  | .grouping e, h => e.literals_lowered (by simp_all)
  | .unary _ e, h => e.literals_lowered (by simp_all)
  | .binary l _ r, h => by
    rw [Expr.literals, Expr.literals, l.literals_lowered (by simp_all), r.literals_lowered (by simp_all)]
  | .logical l _ r, h => by
    rw [Expr.literals, Expr.literals, l.literals_lowered (by simp_all), r.literals_lowered (by simp_all)]
  | .ternary c t e, h => by
    rw [Expr.literals, Expr.literals, c.literals_lowered (by simp_all), t.literals_lowered (by simp_all),
      e.literals_lowered (by simp_all)]
  | .variable _, _ => rfl
  | .assign _ e, h => e.literals_lowered (by simp_all)
  | .call c _ es, h => by
    rw [Expr.literals, Expr.literals, c.literals_lowered (by simp_all),
      literalsOfExprs_lowered es (by simp_all)]
  | .get o _, h => o.literals_lowered (by simp_all)
  | .set o _ e, h => by
    rw [Expr.literals, Expr.literals, o.literals_lowered (by simp_all), e.literals_lowered (by simp_all)]
  | .lambda text, h => text.literals_lowered h
  | .this _, _ => rfl
  | .super _ _, _ => rfl

theorem literalsOfExprs_lowered : ∀ es : List Expr, .keyword .forKw ∉ separated (writtenExprs es) →
    literalsOfExprs .lowered es = literalsOfExprs .written es
  | [], _ => rfl
  | e :: es, h => by
    obtain ⟨he, hes⟩ := not_mem_separated h
    rw [literalsOfExprs, literalsOfExprs, e.literals_lowered he, literalsOfExprs_lowered es hes]

theorem literalsOfOptional_lowered : ∀ e : Option Expr, .keyword .forKw ∉ writtenOptional e →
    literalsOfOptional .lowered e = literalsOfOptional .written e
  | none, _ => rfl
  | some e, h => e.literals_lowered h

/-- A counting loop is excluded by its keyword; every other statement has its parts in the same order. -/
theorem Stmt.literals_lowered : ∀ s : Stmt, .keyword .forKw ∉ s.written →
    s.literals .lowered = s.literals .written
  | .expression e, h => e.literals_lowered (by simp_all)
  | .value e, h => e.literals_lowered h
  | .varDecl _ none, _ => rfl
  | .varDecl _ (some e), h => e.literals_lowered (by simp_all)
  | .block body, h => literalsOfStmts_lowered body (by simp_all)
  | .ifElse c t none, h => by
    rw [Stmt.literals, Stmt.literals, c.literals_lowered (by simp_all), t.literals_lowered (by simp_all)]
    rfl
  | .ifElse c t (some e), h => by
    rw [Stmt.literals, Stmt.literals, c.literals_lowered (by simp_all), t.literals_lowered (by simp_all),
      literalsOfBranch, literalsOfBranch, e.literals_lowered (by simp_all)]
  | .whileLoop c b, h => by
    rw [Stmt.literals, Stmt.literals, c.literals_lowered (by simp_all), b.literals_lowered (by simp_all)]
  | .forLoop _ _ _ _, h => absurd h (by simp)
  | .breakLoop _, _ => rfl
  | .funcDecl text, h => text.literals_lowered h
  | .classDecl _ none methods, h => literalsOfMethods_lowered methods (by simp_all)
  | .classDecl _ (some _) methods, h => literalsOfMethods_lowered methods (by simp_all)
  | .returnValue _ e, h => literalsOfOptional_lowered e (by simp_all)

theorem literalsOfStmts_lowered : ∀ ss : List Stmt, .keyword .forKw ∉ writtenStmts ss →
    literalsOfStmts .lowered ss = literalsOfStmts .written ss
  | [], _ => rfl
  | s :: ss, h => by
    rw [writtenStmts, List.mem_append, not_or] at h
    rw [literalsOfStmts, literalsOfStmts, s.literals_lowered h.1, literalsOfStmts_lowered ss h.2]

theorem Function.literals_lowered : ∀ f : Function, .keyword .forKw ∉ f.written →
    f.literals .lowered = f.literals .written
  | .mk _ _ _ body, h => literalsOfStmts_lowered body (by simp_all)

theorem literalsOfMethods_lowered : ∀ fs : List Function, .keyword .forKw ∉ writtenMethods fs →
    literalsOfMethods .lowered fs = literalsOfMethods .written fs
  | [], _ => rfl
  | f :: fs, h => by
    rw [writtenMethods, List.mem_append, not_or] at h
    rw [literalsOfMethods, literalsOfMethods, f.literals_lowered h.1, literalsOfMethods_lowered fs h.2]

end

end

end Counting

/-! ## Sources -/

open Counting

/-- The constants of a source, in their order: the numbers and strings among its tokens, `true`, `false`
    and `nil`. -/
def sourceLiterals (source : String) : List Literal := constantsOf ((tokensOf (items source)).map Token.kind)

/-- The labels of the constants in the outline of a program, from top to bottom. -/
def printedLiterals (program : List Stmt) : List String := literalLabels (Stmt.outlines program)

/-- **The labels of the constants stand on the lines of the text that is printed**, from top to bottom: each
    line is that of a node, with its label behind what is drawn before it. -/
theorem printedLiterals_on_lines (program : List Stmt) :
    ∃ rows, Listed Outline.Drawn rows (outlineText program) ∧
      printedLiterals program = (rows.map Prod.snd).filter isLiteral := by
  refine ⟨_, Outline.texts_listed (Stmt.outlines program), ?_⟩
  have hlabels : ∀ os : List Outline, labelsAll os = (os.flatMap Outline.nodes).map Prod.snd := by
    intro os
    induction os with
    | nil => rfl
    | cons o os ih => rw [labelsAll, labels_nodes, ih, List.flatMap_cons, List.map_append]
  rw [printedLiterals, literalLabels, hlabels]

/-- Before the end of a source are all its constants, and all its loops. -/
theorem kinds_before_end (source : String) :
    ∃ line, (tokensOf (items source)).map Token.kind =
      ((tokensOf (items source)).takeWhile (!·.isEof)).map Token.kind ++ [(Token.finish line).kind] := by
  obtain ⟨line, htokens⟩ := tokensOf_items source
  have hends : ∀ t ∈ lexemesOf source, t.isEof = false := fun t ht => by
    simpa using (List.mem_filter.mp ht).2
  refine ⟨line, ?_⟩
  rw [htokens, Grammar.takeWhile_before_end rfl hends, List.map_append, List.map_singleton]

/-- **In what order constants are printed.**  A source that is read without a report is that of a program
    with counting loops; its constants are printed as they are written, but for the loops, in which those
    of the increment stand behind those of the body, and `true` for a condition that is left out.  Without
    `for` they are printed as they are written. -/
theorem literals_printed_in_order {source : String} {interactive : Bool} {firstId : Nat}
    (h : (readProgram source interactive firstId).diagnostics = []) :
    ∃ program, Reading source interactive firstId program ∧
      sourceLiterals source = literalsOfStmts .written program ∧
      printedLiterals (readProgram source interactive firstId).program =
        (literalsOfStmts .lowered program).map Literal.label ∧
      (.keyword .forKw ∉ (tokensOf (items source)).map Token.kind →
        printedLiterals (readProgram source interactive firstId).program =
          (sourceLiterals source).map Literal.label) := by
  obtain ⟨program, hreading⟩ := reading_of_read h
  obtain ⟨line, hkinds⟩ := kinds_before_end source
  rw [← hreading.written] at hkinds
  have hworded : ∀ s ∈ lowerStmts program, Worded (fun _ => True) (.stmt s) := by
    rw [hreading.lowered]
    exact worded_of_parse (List.append_eq_nil_iff.mp h).2 fun _ _ _ _ => trivial
  have hwritten : sourceLiterals source = literalsOfStmts .written program := by
    rw [sourceLiterals, hkinds, constantsOf_append, constants_writtenStmts program hworded]
    exact List.append_nil _
  have hprinted : printedLiterals (readProgram source interactive firstId).program =
      (literalsOfStmts .lowered program).map Literal.label := by
    rw [printedLiterals, ← hreading.lowered]
    exact literalLabels_lowerStmts program
  refine ⟨program, hreading, hwritten, hprinted, fun hfor => ?_⟩
  rw [hkinds, List.mem_append, not_or] at hfor
  rw [hprinted, hwritten, literalsOfStmts_lowered program hfor.1]

/-- A counting loop with constants in all its parts, and a statement behind it. -/
def countedLiterals : String := "for 1; nil; \"up\" \x7b true; \x7d 2 == false;"

/-- The same constants without a loop. -/
def uncountedLiterals : String := "1; if nil \x7b f(\"up\", true); \x7d 2 == false;"

/-- With the loop the constants are printed as its parts are lowered, without it as they are written. -/
theorem literals_printed_in_order_counted :
    ((readProgram countedLiterals false 0).diagnostics = [] ∧
      ∃ program, Reading countedLiterals false 0 program ∧
        sourceLiterals countedLiterals = literalsOfStmts .written program ∧
        printedLiterals (readProgram countedLiterals false 0).program =
          (literalsOfStmts .lowered program).map Literal.label) ∧
    (readProgram uncountedLiterals false 0).diagnostics = [] ∧
    .keyword .forKw ∉ (tokensOf (items uncountedLiterals)).map Token.kind ∧
    printedLiterals (readProgram uncountedLiterals false 0).program =
      (sourceLiterals uncountedLiterals).map Literal.label := by
  have hcounted : (readProgram countedLiterals false 0).diagnostics = [] :=
    List.isEmpty_iff.mp (by decide +kernel)
  have huncounted : (readProgram uncountedLiterals false 0).diagnostics = [] :=
    List.isEmpty_iff.mp (by decide +kernel)
  have hfor : .keyword .forKw ∉ (tokensOf (items uncountedLiterals)).map Token.kind := by decide +kernel
  obtain ⟨program, hreading, hwritten, hprinted, -⟩ := literals_printed_in_order hcounted
  obtain ⟨-, -, -, -, horder⟩ := literals_printed_in_order huncounted
  exact ⟨⟨hcounted, program, hreading, hwritten, hprinted⟩, huncounted, hfor, horder hfor⟩

/-- **Not all constants are printed in the order of the source**: in a counting loop those of the increment
    change places with those of the body. -/
theorem literals_printed_moved : ¬ ∀ (source : String) (interactive : Bool) (firstId : Nat),
    (readProgram source interactive firstId).diagnostics = [] →
      printedLiterals (readProgram source interactive firstId).program =
        (sourceLiterals source).map Literal.label := by
  intro h
  have hloop := h "for ; true; nil \x7b false; \x7d" false 0 (List.isEmpty_iff.mp (by decide +kernel))
  exact absurd hloop (by decide +kernel)

end Lox
