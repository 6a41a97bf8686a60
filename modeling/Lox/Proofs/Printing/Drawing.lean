import Lox.Syntax.Outline
import Lox.Proofs.Printing.Listing

/-!
  What a drawn program says.

  The command line draws a tree for each statement of a program.  Here is said what the trees are and what
  stands on their lines, without the functions that make them.

  * A node of the syntax has parts, in the order in which they are written (`SyntaxNode.parts`), and a label:
    a word for what it is, and the names or the constant that belong to it (`Labelled`).  Its tree has that
    label, and the trees of its parts below (`Pictured`).
  * A tree is drawn with a line for each node, from top to bottom.  Before the label of a node stands what
    the path to it asks for, three characters for each step: to the last child of a node or to another one,
    and at the end of the path or on the way (`Outline.guides`).

  The functions of the model nest lines in lines: the lines of a child are put behind a branch as a whole.
  A path is what is left of this nesting at a single line, so the proof carries the step to a child into
  the paths of all its nodes (`hang_drawn`), and for this the first line of the child has to be the only
  one whose path is empty (`path_ne_nil`).

  At the end `outlineText_shows` puts both together, and `labels_nodes` says that the labels on the lines
  are those of the nodes, in their order.
-/

namespace Lox

/-! ## Trees of nodes

  What has to stand at each node, said by rules that know nothing of the renderer. -/

/-- A node of the syntax of a program. -/
inductive SyntaxNode where
  | expr (e : Expr)
  | stmt (s : Stmt)
  | method (d : FunctionDecl)

namespace SyntaxNode

/-- The parts of a node, in the order in which they are written. -/
def parts : SyntaxNode → List SyntaxNode
  | expr (.literal _) | expr (.variable _) | expr (.this _) | expr (.super _ _) => []
  | expr (.grouping e) | expr (.unary _ e) | expr (.assign _ e) | expr (.get e _) => [expr e]
  | expr (.binary l _ r) | expr (.logical l _ r) | expr (.set l _ r) => [expr l, expr r]
  | expr (.ternary c t e) => [expr c, expr t, expr e]
  | expr (.call c _ es) => expr c :: es.map expr
  | expr (.lambda d) | stmt (.funcDecl d) | method d => d.body.map stmt
  | stmt (.expression e) | stmt (.value e) => [expr e]
  | stmt (.varDecl _ e) | stmt (.returnValue _ e) => e.toList.map expr
  | stmt (.block ss) => ss.map stmt
  | stmt (.ifElse c t e) => expr c :: stmt t :: e.toList.map stmt
  | stmt (.whileLoop c b) => [expr c, stmt b]
  | stmt (.breakLoop _) => []
  | stmt (.classDecl _ _ ds) => ds.map method

end SyntaxNode

/-- How a constant is spelled on a label; a string stands between quotes, and without escapes. -/
inductive Literal.Spelled : Literal → String → Prop where
  | nil : Spelled .nil "nil"
  | true : Spelled (.bool true) "true"
  | false : Spelled (.bool false) "false"
  | number {x : Float} : Spelled (.number x) (Number.text x)
  | string {s : String} : Spelled (.string s) ("\"" ++ s ++ "\"")

/-- The name of a function and its parameters; a lambda has no name. -/
inductive FunctionDecl.Signature (d : FunctionDecl) : String → Prop where
  | named {name : Token} {params : String} : d.name = some name →
    Joined ", " (d.params.map Token.lexeme) params → Signature d (name.lexeme ++ "(" ++ params ++ ")")
  | lambda {params : String} : d.name = none → Joined ", " (d.params.map Token.lexeme) params →
    Signature d ("(" ++ params ++ ")")

/-- The label of a node: a word, and the names or the constant that belong to it. -/
inductive Labelled : SyntaxNode → String → Prop where
  | literal {l : Literal} {text : String} : l.Spelled text → Labelled (.expr (.literal l)) ("Literal " ++ text)
  | grouping {e : Expr} : Labelled (.expr (.grouping e)) "Grouping"
  | unary {op : Token} {e : Expr} : Labelled (.expr (.unary op e)) ("Unary " ++ op.lexeme)
  | binary {l : Expr} {op : Token} {r : Expr} : Labelled (.expr (.binary l op r)) ("Binary " ++ op.lexeme)
  | logical {l : Expr} {op : Token} {r : Expr} : Labelled (.expr (.logical l op r)) ("Logical " ++ op.lexeme)
  | ternary {c t e : Expr} : Labelled (.expr (.ternary c t e)) "Ternary"
  | variable {ref : Ref} : Labelled (.expr (.variable ref)) ("Variable " ++ ref.name.lexeme)
  | assign {ref : Ref} {e : Expr} : Labelled (.expr (.assign ref e)) ("Assign " ++ ref.name.lexeme)
  | call {c : Expr} {paren : Token} {es : List Expr} : Labelled (.expr (.call c paren es)) "Call"
  | get {o : Expr} {name : Token} : Labelled (.expr (.get o name)) ("Get " ++ name.lexeme)
  | set {o : Expr} {name : Token} {e : Expr} : Labelled (.expr (.set o name e)) ("Set " ++ name.lexeme)
  | lambda {d : FunctionDecl} {text : String} : d.Signature text →
    Labelled (.expr (.lambda d)) ("Lambda " ++ text)
  | this {ref : Ref} : Labelled (.expr (.this ref)) "This"
  | super {ref : Ref} {method : Token} : Labelled (.expr (.super ref method)) ("Super " ++ method.lexeme)
  | expression {e : Expr} : Labelled (.stmt (.expression e)) "ExpressionStatement"
  | value {e : Expr} : Labelled (.stmt (.value e)) "Value"
  | varDecl {name : Token} {e : Option Expr} : Labelled (.stmt (.varDecl name e)) ("Var " ++ name.lexeme)
  | block {ss : List Stmt} : Labelled (.stmt (.block ss)) "Block"
  | ifElse {c : Expr} {t : Stmt} {e : Option Stmt} : Labelled (.stmt (.ifElse c t e)) "If"
  | whileLoop {c : Expr} {b : Stmt} : Labelled (.stmt (.whileLoop c b)) "While"
  | breakLoop {keyword : Token} : Labelled (.stmt (.breakLoop keyword)) "Break"
  | funcDecl {d : FunctionDecl} {text : String} : d.Signature text →
    Labelled (.stmt (.funcDecl d)) ("Function " ++ text)
  | baseClass {name : Token} {ds : List FunctionDecl} :
    Labelled (.stmt (.classDecl name none ds)) ("Class " ++ name.lexeme)
  | derivedClass {name : Token} {ref : Ref} {ds : List FunctionDecl} :
    Labelled (.stmt (.classDecl name (some ref) ds)) ("Class " ++ name.lexeme ++ " < " ++ ref.name.lexeme)
  | returnValue {keyword : Token} {e : Option Expr} : Labelled (.stmt (.returnValue keyword e)) "Return"
  | method {d : FunctionDecl} {text : String} : d.Signature text → Labelled (.method d) ("Method " ++ text)

mutual

/-- The tree of a node has its label, and the trees of its parts below. -/
inductive Pictured : SyntaxNode → Outline → Prop where
  | node {p : SyntaxNode} {label : String} {os : List Outline} : Labelled p label → PicturedAll p.parts os →
    Pictured p (.node label os)

/-- The trees are those of the nodes, in their order. -/
inductive PicturedAll : List SyntaxNode → List Outline → Prop where
  | none : PicturedAll [] []
  | next {p : SyntaxNode} {o : Outline} {ps : List SyntaxNode} {os : List Outline} : Pictured p o →
    PicturedAll ps os → PicturedAll (p :: ps) (o :: os)

end

/-- The text of a constant spells it. -/
theorem Literal.spelled (l : Literal) : l.Spelled l.outlineText := by
  cases l with
  | nil => exact .nil
  | bool b =>
    cases b with
    | true => exact .true
    | false => exact .false
  | number x => exact .number
  | string s => exact .string

/-- The signature of a function is made of its name and its parameters. -/
theorem FunctionDecl.signature (d : FunctionDecl) : d.Signature (signatureText d.name d.params) := by
  have hparams := joined_intercalate ", " (d.params.map Token.lexeme)
  cases hname : d.name with
  | none =>
    rw [signatureText, Option.elim, String.empty_append]
    exact .lambda hname hparams
  | some name => exact .named hname hparams

mutual

/-- The outline of an expression is its tree. -/
theorem Expr.pictured : ∀ e : Expr, Pictured (.expr e) e.outline
  | .literal l => .node (.literal l.spelled) .none
  | .grouping e => .node .grouping (.next e.pictured .none)
  | .unary _ e => .node .unary (.next e.pictured .none)
  | .binary l _ r => .node .binary (.next l.pictured (.next r.pictured .none))
  | .logical l _ r => .node .logical (.next l.pictured (.next r.pictured .none))
  | .ternary c t e => .node .ternary (.next c.pictured (.next t.pictured (.next e.pictured .none)))
  | .variable _ => .node .variable .none
  | .assign _ e => .node .assign (.next e.pictured .none)
  | .call c _ es => .node .call (.next c.pictured (Expr.pictured_outlines es))
  | .get o _ => .node .get (.next o.pictured .none)
  | .set o _ e => .node .set (.next o.pictured (.next e.pictured .none))
  | .lambda (.mk name keyword params body) =>
    .node (.lambda (FunctionDecl.mk name keyword params body).signature) (Stmt.pictured_outlines body)
  | .this _ => .node .this .none
  | .super _ _ => .node .super .none

theorem Expr.pictured_outlines : ∀ es : List Expr, PicturedAll (es.map .expr) (Expr.outlines es)
  | [] => .none
  | e :: es => .next e.pictured (Expr.pictured_outlines es)

theorem Expr.pictured_optional : ∀ e : Option Expr,
    PicturedAll (e.toList.map .expr) (Expr.optionalOutline e)
  | none => .none
  | some e => .next e.pictured .none

/-- The outline of a statement is its tree. -/
theorem Stmt.pictured : ∀ s : Stmt, Pictured (.stmt s) s.outline
  | .expression e => .node .expression (.next e.pictured .none)
  | .value e => .node .value (.next e.pictured .none)
  | .varDecl _ e => .node .varDecl (Expr.pictured_optional e)
  | .block ss => .node .block (Stmt.pictured_outlines ss)
  | .ifElse c t e => .node .ifElse (.next c.pictured (.next t.pictured (Stmt.pictured_optional e)))
  | .whileLoop c b => .node .whileLoop (.next c.pictured (.next b.pictured .none))
  | .breakLoop _ => .node .breakLoop .none
  | .funcDecl (.mk name keyword params body) =>
    .node (.funcDecl (FunctionDecl.mk name keyword params body).signature) (Stmt.pictured_outlines body)
  | .classDecl name none ds => by
    rw [Stmt.outline, classLabel, Option.elim, String.append_empty]
    exact .node .baseClass (FunctionDecl.pictured_outlines ds)
  | .classDecl name (some ref) ds => by
    rw [Stmt.outline, classLabel, Option.elim, ← String.append_assoc, ← String.append_assoc]
    exact .node .derivedClass (FunctionDecl.pictured_outlines ds)
  | .returnValue _ e => .node .returnValue (Expr.pictured_optional e)

theorem Stmt.pictured_outlines : ∀ ss : List Stmt, PicturedAll (ss.map .stmt) (Stmt.outlines ss)
  | [] => .none
  | s :: ss => .next s.pictured (Stmt.pictured_outlines ss)

theorem Stmt.pictured_optional : ∀ s : Option Stmt,
    PicturedAll (s.toList.map .stmt) (Stmt.optionalOutline s)
  | none => .none
  | some s => .next s.pictured .none

theorem FunctionDecl.pictured_outlines : ∀ ds : List FunctionDecl,
    PicturedAll (ds.map .method) (FunctionDecl.outlines ds)
  | [] => .none
  | .mk name keyword params body :: ds =>
    .next (.node (.method (FunctionDecl.mk name keyword params body).signature) (Stmt.pictured_outlines body))
      (FunctionDecl.pictured_outlines ds)

end

/-! ## Lines of trees

  A node is drawn on a line of its own, behind guides that are told by its place in the tree. -/

namespace Outline

/-- What stands before the label of a node.  A path has for each of its steps whether it goes to the last
    child; on the way down, the branches of the other children go on. -/
def guides : List Bool → String
  | [] => ""
  | [last] => if last then "└─ " else "├─ "
  | last :: path => (if last then "   " else "│  ") ++ guides path

mutual

/-- The nodes of a tree from top to bottom, each as the path to it and its label. -/
def nodes : Outline → List (List Bool × String)
  | node label children => ([], label) :: nodesBelow children

/-- The nodes of the children of a node. -/
def nodesBelow : List Outline → List (List Bool × String)
  | [] => []
  | child :: rest => child.nodes.map (fun n => (rest.isEmpty :: n.1, n.2)) ++ nodesBelow rest

end

/-- The line of a node. -/
def Drawn (n : List Bool × String) (line : String) : Prop := line = guides n.1 ++ n.2

/-- Below a node every path has a step. -/
theorem path_ne_nil : ∀ (os : List Outline), ∀ n ∈ nodesBelow os, n.1 ≠ []
  | [], _, hn => absurd hn List.not_mem_nil
  | child :: rest, n, hn => by
    rw [nodesBelow] at hn
    rcases List.mem_append.mp hn with hn | hn
    · obtain ⟨n', -, rfl⟩ := List.mem_map.mp hn
      exact List.cons_ne_nil _ _
    · exact path_ne_nil rest n hn

/-- With the lines of a child behind a branch, each path to a node has one step more. -/
theorem hang_drawn (last : Bool) (o : Outline)
    (h : o.lines = o.nodes.map fun n => guides n.1 ++ n.2) :
    hang (if last then "└─ " else "├─ ") (if last then "   " else "│  ") o.lines =
      (o.nodes.map fun n => (last :: n.1, n.2)).map fun n => guides n.1 ++ n.2 := by
  obtain ⟨label, children⟩ := o
  rw [nodes, List.map_cons] at h
  rw [h, hang, nodes, List.map_cons, List.map_cons, List.map_map, List.map_map]
  have hfirst : (if last then "└─ " else "├─ ") ++ (guides [] ++ label) = guides [last] ++ label := by
    rw [guides, guides, String.empty_append]
  have hothers : ∀ n ∈ nodesBelow children,
      (if last then "   " else "│  ") ++ (guides n.1 ++ n.2) = guides (last :: n.1) ++ n.2 := by
    rintro ⟨path, label'⟩ hn
    -- Every node below the first has a path.
    cases path with
    | nil => exact absurd rfl (path_ne_nil children _ hn)
    | cons step path => exact String.append_assoc.symm
  exact List.cons_eq_cons.mpr ⟨hfirst, List.map_congr_left hothers⟩

mutual

/-- **The lines of a tree are those of its nodes.** -/
theorem lines_drawn : ∀ o : Outline, o.lines = o.nodes.map fun n => guides n.1 ++ n.2
  | node label children => by
    rw [lines, nodes, List.map_cons, branches_drawn children]
    exact congrArg (· :: _) String.empty_append.symm

/-- The children one after the other, the last of which hangs on another branch. -/
theorem branches_drawn : ∀ os : List Outline,
    branches os = (nodesBelow os).map fun n => guides n.1 ++ n.2
  | [] => rfl
  | [last] => by
    rw [branches, nodesBelow, nodesBelow, List.append_nil]
    exact hang_drawn true last (lines_drawn last)
  | child :: next :: rest => by
    rw [branches.eq_3 _ _ (by simp), nodesBelow, List.map_append, branches_drawn (next :: rest)]
    exact congrArg (· ++ _) (hang_drawn false child (lines_drawn child))

end

/-- The text of a tree lists its nodes. -/
theorem text_listed (o : Outline) : Listed Drawn o.nodes o.text := by
  rw [text, lines_drawn, List.map_map]
  exact .of_map fun n _ => rfl

/-- The texts of trees list the nodes of one after those of the other. -/
theorem texts_listed (os : List Outline) :
    Listed Drawn (os.flatMap nodes) (String.join (os.map text)) := by
  induction os with
  | nil => exact .none
  | cons o os ih =>
    rw [List.flatMap_cons, List.map_cons, String.join_cons]
    exact o.text_listed.append ih

end Outline

/-! ## Programs -/

/-- The text shows the program: a tree for each statement, and a line for each node of a tree. -/
def ShowsProgram (program : List Stmt) (text : String) : Prop :=
  ∃ trees, PicturedAll (program.map .stmt) trees ∧ Listed Outline.Drawn (trees.flatMap Outline.nodes) text

/-- **The text of a program shows it.** -/
theorem outlineText_shows (program : List Stmt) : ShowsProgram program (outlineText program) :=
  ⟨_, Stmt.pictured_outlines program, Outline.texts_listed _⟩

end Lox
