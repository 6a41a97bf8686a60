import Lox.Proofs.Counting.Syntax
import Lox.Proofs.Grammar.Trailing
import Lox.Session

/-!
  Reading programs with counting loops.

  Whatever is derived is what a tree with counting loops is lowered to, and this tree is written with the
  tokens that the derivation has read (`Derives.written`).  So every program that is read without a report
  has a tree with a counting loop for each `for` of its source (`reading_of_read`).

  Both halves of this are needed.  That the program is lowered from the tree alone would be true of the
  program itself, which has no counting loop; that the tree is written with the tokens of the source rules
  this out, for then it has to have a loop wherever there is a `for`.

  The proof is an induction on derivations with a lemma for each rule that has parts (`Spans`).  Phrases
  that are separated by commas need a non-empty rest for there to be a comma; the categories of such lists
  say so (`Category.Written`).
-/

namespace Lox

open Counting

namespace Grammar

/-- The tree is made of one that is written with tokens of these kinds. -/
def Category.Written : (c : Category) → c.Tree → List TokenKind → Prop
  | .expression, e, ks | .ternary, e, ks | .operators _, e, ks | .unary, e, ks | .call, e, ks
  | .primary, e, ks => ∃ p : Counting.Expr, p.lower = e ∧ p.written = ks
  | .optional, e, ks => ∃ p, lowerOptional p = e ∧ writtenOptional p = ks
  | .arguments, es, ks => ∃ ps, lowerExprs ps = es ∧ separated (writtenExprs ps) = ks
  | .argumentList, es, ks => ∃ ps, ps ≠ [] ∧ lowerExprs ps = es ∧ separated (writtenExprs ps) = ks
  | .parameters, names, ks => separated (names.map fun _ => [.identifier]) = ks
  | .parameterList, names, ks => names ≠ [] ∧ separated (names.map fun _ => [.identifier]) = ks
  | .routine _, d, ks => ∃ p : Function, p.lower = d ∧ p.written = ks
  | .superclass, ref, ks => ref.elim [] (fun _ => [.mark .less, .identifier]) = ks
  | .methods, ds, ks => ∃ ps, lowerMethods ps = ds ∧ writtenMethods ps = ks
  | .initializer, s, ks => ∃ p, lowerBranch p = s ∧ writtenInitializer p = ks
  | .varDecl, s, ks | .conditional _, s, ks | .statement _, s, ks | .declaration _, s, ks =>
    ∃ p : Counting.Stmt, p.lower = s ∧ p.written = ks
  | .block _, ss, ks =>
    ∃ ps, lowerStmts ps = ss ∧ .mark .leftBrace :: writtenStmts ps ++ [.mark .rightBrace] = ks
  | .declarations _, ss, ks => ∃ ps, lowerStmts ps = ss ∧ writtenStmts ps = ks

/-- From the first stand to the second such a tree has been read. -/
def Spans (c : Category) (s : Stand) (a : c.Tree) (u : Stand) : Prop :=
  ∃ ks, s.1.map Token.kind = ks ++ u.1.map Token.kind ∧ c.Written a ks

section

attribute [local simp] Token.IsName Token.IsMark Token.IsKeyword Counting.Expr.written Counting.Stmt.written
  Function.written writtenExprs writtenOptional writtenStmts writtenInitializer writtenMethods literalKind

/-- Before a rest that is not empty stands a comma. -/
theorem separated_cons {phrase : List TokenKind} {rest : List (List TokenKind)} (h : rest ≠ []) :
    separated (phrase :: rest) = phrase ++ .mark .comma :: separated rest := by
  cases rest with
  | nil => exact absurd rfl h
  | cons next rest => rfl

/-- Every expression is written with something, so a list of them is empty on both sides or on neither. -/
theorem writtenExprs_ne_nil {ps : List Counting.Expr} (h : ps ≠ []) : writtenExprs ps ≠ [] := by
  cases ps with
  | nil => exact absurd rfl h
  | cons p ps => exact List.cons_ne_nil _ _

/-! ### Rules

  A lemma for each rule with parts.  The trees of the parts make the tree of the whole, which is lowered
  and written as they are: both hold by definition, and what remains is that the kinds of the tokens, taken
  together, are those of the text (`simp_all`). -/

namespace Spans

variable {s u v w : Stand} {ts us vs : List Token} {i j k : Nat} {inLoop : Bool}

/-! ### Expressions -/

/-- The rule `NAME = expression`. -/
theorem assignVariable {name equals : Token} {value : Expr} (hn : name.IsName) (he : equals.IsMark .equal)
    (hvalue : Spans .expression (ts, i + 1) value (us, j)) :
    Spans .expression (name :: equals :: ts, i) (.assign ⟨j, name⟩ value) (us, j + 1) := by
  obtain ⟨_, hks, p, rfl, rfl⟩ := hvalue
  exact ⟨_, by simp_all, .assign ⟨_, _⟩ p, rfl, rfl⟩

/-- The rule `object . NAME = expression`. -/
theorem assignProperty {object value : Expr} {dot name equals : Token}
    (hobject : Spans .call s object (dot :: name :: equals :: ts, i)) (hd : dot.IsMark .dot)
    (hn : name.IsName) (he : equals.IsMark .equal) (hvalue : Spans .expression (ts, i) value u) :
    Spans .expression s (.set object name value) u := by
  obtain ⟨_, hos, o, rfl, rfl⟩ := hobject
  obtain ⟨_, hvs, p, rfl, rfl⟩ := hvalue
  exact ⟨_, by simp_all, .set o _ p, rfl, rfl⟩

/-- The rule `condition ? expression : expression`. -/
theorem choice {condition thenBranch elseBranch : Expr} {question colon : Token}
    (hcondition : Spans (.operators Tier.all) s condition (question :: ts, i))
    (hq : question.IsMark .question) (hthen : Spans .ternary (ts, i) thenBranch (colon :: us, j))
    (hc : colon.IsMark .colon) (helse : Spans .ternary (us, j) elseBranch u) :
    Spans .ternary s (.ternary condition thenBranch elseBranch) u := by
  obtain ⟨_, hcs, c, rfl, rfl⟩ := hcondition
  obtain ⟨_, hts, t, rfl, rfl⟩ := hthen
  obtain ⟨_, hes, e, rfl, rfl⟩ := helse
  exact ⟨_, by simp_all, .ternary c t e, rfl, rfl⟩

/-- The tier decides between the two trees that an operator can have. -/
theorem operator {tier : Tier} {tighter : List Tier} {left right : Expr} {operator : Token}
    (hleft : Spans (.operators (tier :: tighter)) s left (operator :: ts, i))
    (hright : Spans (.operators tighter) (ts, i) right u) :
    Spans (.operators (tier :: tighter)) s (tier.tree left operator right) u := by
  obtain ⟨_, hls, l, rfl, rfl⟩ := hleft
  obtain ⟨_, hrs, r, rfl, rfl⟩ := hright
  refine ⟨l.written ++ operator.kind :: r.written, by simp_all, ?_⟩
  cases tier with
  | disjunction | conjunction => exact ⟨.logical l operator r, rfl, rfl⟩
  | equality | comparison | term | factor => exact ⟨.binary l operator r, rfl, rfl⟩

/-- The rule `! expression` or `- expression`. -/
theorem negated {operator : Token} {right : Expr} (hright : Spans .unary (ts, i) right u) :
    Spans .unary (operator :: ts, i) (.unary operator right) u := by
  obtain ⟨_, hks, p, rfl, rfl⟩ := hright
  exact ⟨_, by simp_all, .unary _ p, rfl, rfl⟩

/-- A function without a name, as an expression. -/
theorem lambda {d : FunctionDecl} (hd : Spans (.routine .lambda) s d u) : Spans .unary s (.lambda d) u := by
  obtain ⟨_, hks, p, rfl, rfl⟩ := hd
  exact ⟨_, hks, .lambda p, rfl, rfl⟩

/-! ### Calls -/

/-- The rule `callee ( arguments )`. -/
theorem application {callee : Expr} {given : List Expr} {left right : Token}
    (hcallee : Spans .call s callee (left :: ts, i)) (hl : left.IsMark .leftParen)
    (hgiven : Spans .arguments (ts, i) given (right :: us, j)) (hr : right.IsMark .rightParen) :
    Spans .call s (.call callee right given) (us, j) := by
  obtain ⟨_, hcs, c, rfl, rfl⟩ := hcallee
  obtain ⟨_, hgs, ps, rfl, rfl⟩ := hgiven
  exact ⟨_, by simp_all, .call c _ ps, rfl, rfl⟩

/-- The rule `object . NAME`. -/
theorem property {object : Expr} {dot name : Token}
    (hobject : Spans .call s object (dot :: name :: ts, i)) (hd : dot.IsMark .dot) (hn : name.IsName) :
    Spans .call s (.get object name) (ts, i) := by
  obtain ⟨_, hks, p, rfl, rfl⟩ := hobject
  exact ⟨_, by simp_all, .get p _, rfl, rfl⟩

/-- The rule `( expression )`. -/
theorem grouping {left right : Token} {inner : Expr} (hl : left.IsMark .leftParen)
    (hinner : Spans .expression (ts, i) inner (right :: us, j)) (hr : right.IsMark .rightParen) :
    Spans .primary (left :: ts, i) (.grouping inner) (us, j) := by
  obtain ⟨_, hks, p, rfl, rfl⟩ := hinner
  exact ⟨_, by simp_all, .grouping p, rfl, rfl⟩

/-! ### Lists of expressions and of names -/

theorem given {e : Expr} (he : Spans .expression s e u) : Spans .optional s (some e) u := by
  obtain ⟨_, hks, p, rfl, rfl⟩ := he
  exact ⟨_, hks, some p, rfl, rfl⟩

theorem someArguments {es : List Expr} (hes : Spans .argumentList s es u) : Spans .arguments s es u := by
  obtain ⟨_, hks, ps, -, rfl, rfl⟩ := hes
  exact ⟨_, hks, ps, rfl, rfl⟩

theorem lastArgument {e : Expr} (he : Spans .expression s e u) : Spans .argumentList s [e] u := by
  obtain ⟨_, hks, p, rfl, rfl⟩ := he
  exact ⟨_, hks, [p], List.cons_ne_nil _ _, rfl, rfl⟩

/-- The comma is there because the rest of the list is not empty. -/
theorem argument {first : Expr} {comma : Token} {rest : List Expr}
    (hfirst : Spans .expression s first (comma :: ts, i)) (hc : comma.IsMark .comma)
    (hrest : Spans .argumentList (ts, i) rest u) : Spans .argumentList s (first :: rest) u := by
  obtain ⟨_, hfs, p, rfl, rfl⟩ := hfirst
  obtain ⟨_, hrs, ps, hne, rfl, rfl⟩ := hrest
  refine ⟨_, ?_, p :: ps, List.cons_ne_nil _ _, rfl, separated_cons (writtenExprs_ne_nil hne)⟩
  simp_all

theorem someParameters {names : List Token} (hnames : Spans .parameterList s names u) :
    Spans .parameters s names u := by
  obtain ⟨_, hks, -, rfl⟩ := hnames
  exact ⟨_, hks, rfl⟩

theorem parameter {name comma : Token} {rest : List Token} (hn : name.IsName) (hc : comma.IsMark .comma)
    (hrest : Spans .parameterList (ts, i) rest u) :
    Spans .parameterList (name :: comma :: ts, i) (name :: rest) u := by
  obtain ⟨_, hks, hne, rfl⟩ := hrest
  refine ⟨_, ?_, List.cons_ne_nil _ _, separated_cons fun h => hne (List.map_eq_nil_iff.mp h)⟩
  simp_all

/-! ### Functions and classes -/

/-- The rule `func NAME ( parameters ) { body }`, a method or a declared function. -/
theorem routine {kind : Routine} {keyword name left right : Token} {params : List Token} {body : List Stmt}
    (hk : keyword.IsKeyword .funcKw) (hn : name.IsName) (hl : left.IsMark .leftParen)
    (hparams : Spans .parameters (ts, i) params (right :: us, j)) (hr : right.IsMark .rightParen)
    (hbody : Spans (.block false) (us, j) body u) :
    Spans (.routine kind) (keyword :: name :: left :: ts, i) (.mk (some name) keyword params body) u := by
  obtain ⟨_, hps, rfl⟩ := hparams
  obtain ⟨_, hbs, ps, rfl, rfl⟩ := hbody
  exact ⟨_, by simp_all, .mk (some _) _ _ ps, rfl, rfl⟩

/-- The rule `func ( parameters ) { body }`. -/
theorem anonymous {keyword left right : Token} {params : List Token} {body : List Stmt}
    (hk : keyword.IsKeyword .funcKw) (hl : left.IsMark .leftParen)
    (hparams : Spans .parameters (ts, i) params (right :: us, j)) (hr : right.IsMark .rightParen)
    (hbody : Spans (.block false) (us, j) body u) :
    Spans (.routine .lambda) (keyword :: left :: ts, i) (.mk none keyword params body) u := by
  obtain ⟨_, hps, rfl⟩ := hparams
  obtain ⟨_, hbs, ps, rfl, rfl⟩ := hbody
  exact ⟨_, by simp_all, .mk none _ _ ps, rfl, rfl⟩

theorem method {first : FunctionDecl} {rest : List FunctionDecl}
    (hfirst : Spans (.routine .method) s first u) (hrest : Spans .methods u rest v) :
    Spans .methods s (first :: rest) v := by
  obtain ⟨_, hfs, p, rfl, rfl⟩ := hfirst
  obtain ⟨_, hrs, ps, rfl, rfl⟩ := hrest
  exact ⟨_, by simp_all, p :: ps, rfl, rfl⟩

/-- The rule `class NAME < NAME { methods }`, the superclass left out or not. -/
theorem classDecl {keyword name left right : Token} {superclass : Option Ref} {methods : List FunctionDecl}
    (hk : keyword.IsKeyword .classKw) (hn : name.IsName)
    (hsuper : Spans .superclass (ts, i) superclass (left :: us, j)) (hl : left.IsMark .leftBrace)
    (hmethods : Spans .methods (us, j) methods (right :: vs, k)) (hr : right.IsMark .rightBrace) :
    Spans (.declaration inLoop) (keyword :: name :: ts, i) (.classDecl name superclass methods)
      (vs, k) := by
  obtain ⟨_, hss, rfl⟩ := hsuper
  obtain ⟨_, hms, ps, rfl, rfl⟩ := hmethods
  exact ⟨_, by simp_all, .classDecl _ _ ps, rfl, rfl⟩

/-! ### Declarations -/

theorem function {d : FunctionDecl} (hd : Spans (.routine .function) s d u) :
    Spans (.declaration inLoop) s (.funcDecl d) u := by
  obtain ⟨_, hks, p, rfl, rfl⟩ := hd
  exact ⟨_, hks, .funcDecl p, rfl, rfl⟩

/-- The rule `var NAME = expression ;`. -/
theorem set {keyword name equals stop : Token} {value : Expr} (hk : keyword.IsKeyword .varKw)
    (hn : name.IsName) (he : equals.IsMark .equal)
    (hvalue : Spans .expression (ts, i) value (stop :: us, j)) (ht : stop.IsMark .semicolon) :
    Spans .varDecl (keyword :: name :: equals :: ts, i) (.varDecl name (some value)) (us, j) := by
  obtain ⟨_, hks, p, rfl, rfl⟩ := hvalue
  exact ⟨_, by simp_all, .varDecl _ (some p), rfl, rfl⟩

theorem declarations {first : Stmt} {rest : List Stmt} (hfirst : Spans (.declaration inLoop) s first u)
    (hrest : Spans (.declarations inLoop) u rest v) : Spans (.declarations inLoop) s (first :: rest) v := by
  obtain ⟨_, hfs, p, rfl, rfl⟩ := hfirst
  obtain ⟨_, hrs, ps, rfl, rfl⟩ := hrest
  exact ⟨_, by simp_all, p :: ps, rfl, rfl⟩

/-- The rule `{ declarations }`. -/
theorem block {left right : Token} {body : List Stmt} (hl : left.IsMark .leftBrace)
    (hbody : Spans (.declarations inLoop) (ts, i) body (right :: us, j)) (hr : right.IsMark .rightBrace) :
    Spans (.block inLoop) (left :: ts, i) body (us, j) := by
  obtain ⟨_, hks, ps, rfl, rfl⟩ := hbody
  exact ⟨_, by simp_all, ps, rfl, rfl⟩

/-! ### Statements -/

theorem variableInitializer {d : Stmt} (hd : Spans .varDecl s d u) : Spans .initializer s (some d) u := by
  obtain ⟨_, hks, p, rfl, rfl⟩ := hd
  exact ⟨_, hks, some p, rfl, rfl⟩

theorem expressionInitializer {e : Expr} {stop : Token} (he : Spans .expression s e (stop :: ts, i))
    (ht : stop.IsMark .semicolon) : Spans .initializer s (some (.expression e)) (ts, i) := by
  obtain ⟨_, hks, p, rfl, rfl⟩ := he
  exact ⟨_, by simp_all, some (.expression p), rfl, rfl⟩

/-- What the grammar makes of the parts is what a counting loop with them is lowered to. -/
theorem forLoop {keyword stop : Token} {initializer : Option Stmt} {condition increment : Option Expr}
    {body : List Stmt} (hk : keyword.IsKeyword .forKw)
    (hinitializer : Spans .initializer (ts, i) initializer u)
    (hcondition : Spans .optional u condition (stop :: us, j)) (ht : stop.IsMark .semicolon)
    (hincrement : Spans .optional (us, j) increment v) (hbody : Spans (.block true) v body w) :
    Spans (.statement inLoop) (keyword :: ts, i) (loopTree condition increment body initializer) w := by
  obtain ⟨_, his, i, rfl, rfl⟩ := hinitializer
  obtain ⟨_, hcs, c, rfl, rfl⟩ := hcondition
  obtain ⟨_, hns, n, rfl, rfl⟩ := hincrement
  obtain ⟨_, hbs, ps, rfl, rfl⟩ := hbody
  exact ⟨_, by simp_all, .forLoop i c n ps, countingLoop_block _ _ _ _, rfl⟩

/-- The rule `while condition { body }`. -/
theorem whileLoop {keyword : Token} {condition : Expr} {body : List Stmt}
    (hk : keyword.IsKeyword .whileKw) (hcondition : Spans .expression (ts, i) condition u)
    (hbody : Spans (.block true) u body v) :
    Spans (.statement inLoop) (keyword :: ts, i) (.whileLoop condition (.block body)) v := by
  obtain ⟨_, hcs, c, rfl, rfl⟩ := hcondition
  obtain ⟨_, hbs, ps, rfl, rfl⟩ := hbody
  exact ⟨_, by simp_all, .whileLoop c (.block ps), rfl, rfl⟩

/-- The rule `if condition { body }`. -/
theorem ifOnly {keyword : Token} {condition : Expr} {thenBranch : List Stmt}
    (hk : keyword.IsKeyword .ifKw) (hcondition : Spans .expression (ts, i) condition u)
    (hthen : Spans (.block inLoop) u thenBranch v) :
    Spans (.conditional inLoop) (keyword :: ts, i) (.ifElse condition (.block thenBranch) none) v := by
  obtain ⟨_, hcs, c, rfl, rfl⟩ := hcondition
  obtain ⟨_, hts, ts, rfl, rfl⟩ := hthen
  exact ⟨_, by simp_all, .ifElse c (.block ts) none, rfl, rfl⟩

/-- The rule `if condition { body } else { body }`. -/
theorem ifElse {keyword otherwise : Token} {condition : Expr} {thenBranch elseBranch : List Stmt}
    (hk : keyword.IsKeyword .ifKw) (hcondition : Spans .expression (ts, i) condition u)
    (hthen : Spans (.block inLoop) u thenBranch (otherwise :: us, j))
    (ho : otherwise.IsKeyword .elseKw) (helse : Spans (.block inLoop) (us, j) elseBranch v) :
    Spans (.conditional inLoop) (keyword :: ts, i)
      (.ifElse condition (.block thenBranch) (some (.block elseBranch))) v := by
  obtain ⟨_, hcs, c, rfl, rfl⟩ := hcondition
  obtain ⟨_, hts, ts, rfl, rfl⟩ := hthen
  obtain ⟨_, hes, es, rfl, rfl⟩ := helse
  exact ⟨_, by simp_all, .ifElse c (.block ts) (some (.block es)), rfl, rfl⟩

/-- The rule `if condition { body } else if ...`. -/
theorem elseIf {keyword otherwise : Token} {condition : Expr} {thenBranch : List Stmt} {elseBranch : Stmt}
    (hk : keyword.IsKeyword .ifKw) (hcondition : Spans .expression (ts, i) condition u)
    (hthen : Spans (.block inLoop) u thenBranch (otherwise :: us, j))
    (ho : otherwise.IsKeyword .elseKw) (helse : Spans (.conditional inLoop) (us, j) elseBranch v) :
    Spans (.conditional inLoop) (keyword :: ts, i)
      (.ifElse condition (.block thenBranch) (some elseBranch)) v := by
  obtain ⟨_, hcs, c, rfl, rfl⟩ := hcondition
  obtain ⟨_, hts, ts, rfl, rfl⟩ := hthen
  obtain ⟨_, hes, e, rfl, rfl⟩ := helse
  exact ⟨_, by simp_all, .ifElse c (.block ts) (some e), rfl, rfl⟩

/-- The rule `return expression ;`, the expression left out or not. -/
theorem returnValue {keyword stop : Token} {value : Option Expr} (hk : keyword.IsKeyword .returnKw)
    (hvalue : Spans .optional (ts, i) value (stop :: us, j)) (ht : stop.IsMark .semicolon) :
    Spans (.statement inLoop) (keyword :: ts, i) (.returnValue keyword value) (us, j) := by
  obtain ⟨_, hks, p, rfl, rfl⟩ := hvalue
  exact ⟨_, by simp_all, .returnValue _ p, rfl, rfl⟩

theorem blockStatement {body : List Stmt} (hbody : Spans (.block inLoop) s body u) :
    Spans (.statement inLoop) s (.block body) u := by
  obtain ⟨_, hks, ps, rfl, rfl⟩ := hbody
  exact ⟨_, hks, .block ps, rfl, rfl⟩

theorem expressionStatement {e : Expr} {stop : Token} (he : Spans .expression s e (stop :: ts, i))
    (ht : stop.IsMark .semicolon) : Spans (.statement inLoop) s (.expression e) (ts, i) := by
  obtain ⟨_, hks, p, rfl, rfl⟩ := he
  exact ⟨_, by simp_all, .expression p, rfl, rfl⟩

end Spans

/-- **What has been derived is made of a tree that is written with the tokens read.**  By induction on the
    derivation: the rules with parts by their lemmas, the others by the tokens they read. -/
theorem Derives.written {c : Category} {s u : Stand} {a : c.Tree} (h : Derives c s a u) :
    Spans c s a u := by
  induction h with
  | assignVariable hn he _ ih => exact .assignVariable hn he ih
  | assignProperty _ hd hn he _ iho ihv => exact .assignProperty iho hd hn he ihv
  | choice _ hq _ hc _ ihc iht ihe => exact .choice ihc hq iht hc ihe
  | operator _ _ _ ihl ihr => exact .operator ihl ihr
  | negated _ _ ih => exact .negated ih
  | lambda _ ih => exact .lambda ih
  | application _ hl _ hr ihc ihg => exact .application ihc hl ihg hr
  | property _ hd hn ih => exact .property ih hd hn
  | grouping hl _ hr ih => exact .grouping hl ih hr
  | given _ ih => exact .given ih
  | someArguments _ ih => exact .someArguments ih
  | lastArgument _ ih => exact .lastArgument ih
  | argument _ hc _ ihf ihr => exact .argument ihf hc ihr
  | someParameters _ ih => exact .someParameters ih
  | parameter hn hc _ ih => exact .parameter hn hc ih
  | routine _ hk hn hl _ hr _ ihp ihb => exact .routine hk hn hl ihp hr ihb
  | anonymous hk hl _ hr _ ihp ihb => exact .anonymous hk hl ihp hr ihb
  | method _ _ ihf ihr => exact .method ihf ihr
  | classDecl hk hn _ hl _ hr ihs ihm => exact .classDecl hk hn ihs hl ihm hr
  | function _ ih => exact .function ih
  | set hk hn he _ ht ih => exact .set hk hn he ih ht
  | variableInitializer _ ih => exact .variableInitializer ih
  | expressionInitializer _ ht ih => exact .expressionInitializer ih ht
  | forLoop hk _ _ ht _ _ ihi ihc ihn ihb => exact .forLoop hk ihi ihc ht ihn ihb
  | whileLoop hk _ _ ihc ihb => exact .whileLoop hk ihc ihb
  | ifOnly hk _ _ ihc iht => exact .ifOnly hk ihc iht
  | ifElse hk _ _ ho _ ihc iht ihe => exact .ifElse hk ihc iht ho ihe
  | elseIf hk _ _ ho _ ihc iht ihe => exact .elseIf hk ihc iht ho ihe
  | returnValue hk _ ht ih => exact .returnValue hk ih ht
  | blockStatement _ ih => exact .blockStatement ih
  | expressionStatement _ ht ih => exact .expressionStatement ih ht
  | block hl _ hr ih => exact .block hl ih hr
  | declarations _ _ ihf ihr => exact .declarations ihf ihr
  -- A phrase of another category, with the same tree.
  | ternary _ ih | operators _ ih | unary _ ih | operand _ ih | call _ ih | primary _ ih | varDecl _ ih
  | statement _ _ ih | conditional _ ih => exact ih
  -- Tokens alone.
  | number hk => exact ⟨_, by simp_all, .literal (.number _), rfl, rfl⟩
  | string hk => exact ⟨_, by simp_all, .literal (.string _), rfl, rfl⟩
  | trueConstant hk => exact ⟨_, by simp_all, .literal (.bool true), rfl, rfl⟩
  | falseConstant hk => exact ⟨_, by simp_all, .literal (.bool false), rfl, rfl⟩
  | nilConstant hk => exact ⟨_, by simp_all, .literal .nil, rfl, rfl⟩
  | name hn => exact ⟨_, by simp_all, .variable ⟨_, _⟩, rfl, rfl⟩
  | this hk => exact ⟨_, by simp_all, .this ⟨_, _⟩, rfl, rfl⟩
  | super hk hd hn => exact ⟨_, by simp_all, .super ⟨_, _⟩ _, rfl, rfl⟩
  | lastParameter hn => exact ⟨[.identifier], by simp_all, List.cons_ne_nil _ _, rfl⟩
  | extending hl hn => exact ⟨[.mark .less, .identifier], by simp_all, rfl⟩
  | unset hk hn ht => exact ⟨_, by simp_all, .varDecl _ none, rfl, rfl⟩
  | noInitializer ht => exact ⟨_, by simp_all, none, rfl, rfl⟩
  | breakLoop hk ht => exact ⟨_, by simp_all, .breakLoop _, rfl, rfl⟩
  -- Nothing is read.
  | omitted => exact ⟨_, rfl, none, rfl, rfl⟩
  | noArguments | noMethods | noDeclarations => exact ⟨_, rfl, [], rfl, rfl⟩
  | noParameters | noSuperclass => exact ⟨_, rfl, rfl⟩

end

end Grammar

namespace Counting

/-- Statements are lowered one by one. -/
theorem lowerStmts_append (ss ts : List Stmt) : lowerStmts (ss ++ ts) = lowerStmts ss ++ lowerStmts ts := by
  induction ss with
  | nil => rfl
  | cons s ss ih => exact congrArg (s.lower :: ·) ih

/-- Statements are written one behind the other. -/
theorem writtenStmts_append (ss ts : List Stmt) :
    writtenStmts (ss ++ ts) = writtenStmts ss ++ writtenStmts ts := by
  induction ss with
  | nil => rfl
  | cons s ss ih =>
    show s.written ++ writtenStmts (ss ++ ts) = s.written ++ writtenStmts ss ++ writtenStmts ts
    rw [ih, List.append_assoc]

/-- The program is written with the tokens of the source, and what it is lowered to is the program that
    is read from them. -/
structure Reading (source : String) (interactive : Bool) (firstId : Nat) (program : List Stmt) : Prop where
  lowered : lowerStmts program = (readProgram source interactive firstId).program
  written : writtenStmts program = ((tokensOf (items source)).takeWhile (!·.isEof)).map Token.kind

/-- **Every source that is read without a report is that of a program with counting loops.** -/
theorem reading_of_read {source : String} {interactive : Bool} {firstId : Nat}
    (h : (readProgram source interactive firstId).diagnostics = []) :
    ∃ program, Reading source interactive firstId program := by
  obtain ⟨-, hparse⟩ := List.append_eq_nil_iff.mp h
  obtain ⟨u, hu, -, before, last, v, hprogram, hbefore, hlast⟩ := Grammar.program_of_parse hparse
  obtain ⟨_, hkinds, ps, rfl, rfl⟩ := hbefore.written
  have hread : (readProgram source interactive firstId).program = lowerStmts ps ++ last := hprogram
  cases hlast with
  | nothing =>
    rw [hu, List.map_nil, List.append_nil] at hkinds
    exact ⟨ps, by rw [hread, List.append_nil], hkinds.symm⟩
  | value _ _ _ he =>
    obtain ⟨_, hlast, e, rfl, rfl⟩ := he.written
    rw [hu, List.map_nil, List.append_nil] at hlast
    refine ⟨ps ++ [.value e], ?_, ?_⟩
    · rw [hread, lowerStmts_append]
      rfl
    · rw [writtenStmts_append, hkinds, hlast]
      exact congrArg _ (List.append_nil _)

end Counting

end Lox
