import Mathlib.Data.List.Forall2
import Lox.Diagnostic
import Lox.Proofs.Scope.Formed

/-!
  Copies of trees.

  Two trees that differ in the numbers of their occurrences of names, and in the lines of their tokens,
  do the same.  A likeness says which numbers and which tokens stand for each other; one tree is a copy
  of the other under the likeness if they are the same but for these (`Copy`).

  A likeness has to keep enough for this to be useful (`Likeness`): tokens that stand for each other have
  the same kind and the same text, and a number stands for one other at most, so that what is recorded for
  one occurrence is not taken for another's.  Two likenesses are used: the numbers below a bound stand for
  themselves (`Likeness.below`), and those from a bound on stand for higher ones (`Likeness.raised`).

  `numbers` lists the numbers of the occurrences in a phrase, from left to right, and `renumber` changes
  them all: a copy with the same tokens is the renumbered tree (`Copy.eq_renumber`).  Whether a tree is a
  copy depends on nothing but the numbers that it holds (`Copy.imp`), so a program that was read before a
  bound is a copy of itself whatever the numbers behind the bound stand for.
-/

namespace Lox

/-! ## Likenesses -/

/-- Which numbers of occurrences, and which tokens, stand for each other. -/
structure Likeness where
  number : Nat → Nat → Prop
  token : Token → Token → Prop
  /-- A number stands for one other at most. -/
  single : ∀ {i i' j j'}, number i i' → number j j' → (i = j ↔ i' = j')
  kind : ∀ {t t'}, token t t' → t'.kind = t.kind
  lexeme : ∀ {t t'}, token t t' → t'.lexeme = t.lexeme
  /-- The names that no program text holds stand for each other too. -/
  named : ∀ {t t'}, token t t' → token (.named "this" t.line) (.named "this" t'.line)

namespace Likeness

/-- The occurrences stand for each other. -/
structure Refs (K : Likeness) (r r' : Ref) : Prop where
  number : K.number r.id r'.id
  token : K.token r.name r'.name

/-- Whatever stands for each other under the first likeness does so under the second. -/
structure Le (K K' : Likeness) : Prop where
  number : ∀ {i i'}, K.number i i' → K'.number i i'
  token : ∀ {t t'}, K.token t t' → K'.token t t'

/-- Tokens stand for themselves only, numbers for others. -/
def sameTokens (number : Nat → Nat → Prop)
    (single : ∀ {i i' j j'}, number i i' → number j j' → (i = j ↔ i' = j')) : Likeness where
  number := number
  token t t' := t' = t
  single := single
  kind := congrArg Token.kind
  lexeme := congrArg Token.lexeme
  named h := congrArg (fun t => Token.named "this" t.line) h

/-- The numbers below a bound stand for themselves. -/
def below (bound : Nat) : Likeness :=
  sameTokens (fun i i' => i < bound ∧ i' = i) fun hi hj => by rw [hi.2, hj.2]

/-- The numbers from a bound on stand for higher ones, and those below for themselves. -/
def raised (bound k : Nat) : Likeness :=
  sameTokens (fun i i' => i' = if i < bound then i else i + k) fun hi hj => by
    rw [hi, hj]
    split_ifs <;> omega

/-- More numbers stand for themselves if the bound is higher. -/
theorem below_le {bound bound' : Nat} (h : bound ≤ bound') : (below bound).Le (below bound') :=
  ⟨fun hi => ⟨Nat.lt_of_lt_of_le hi.1 h, hi.2⟩, id⟩

/-- Raising the numbers from a bound on leaves those below it as they are. -/
theorem below_le_raised (bound k : Nat) : (below bound).Le (raised bound k) :=
  ⟨fun hi => hi.2.trans (if_pos hi.1).symm, id⟩

end Likeness

/-! ## Copies

  One rule for each kind of phrase: tokens correspond by `K.token`, occurrences by `K.number`, and what is
  written otherwise is the same. -/

/-- The second phrase is the first with other numbers and other tokens that stand for the former
    ones. -/
inductive Copy (K : Likeness) : Phrase → Phrase → Prop where
  | literal {l} : Copy K (.expr (.literal l)) (.expr (.literal l))
  | grouping {e e'} : Copy K (.expr e) (.expr e') →
    Copy K (.expr (.grouping e)) (.expr (.grouping e'))
  | unary {op op' e e'} : K.token op op' → Copy K (.expr e) (.expr e') →
    Copy K (.expr (.unary op e)) (.expr (.unary op' e'))
  | binary {l l' op op' r r'} : Copy K (.expr l) (.expr l') → K.token op op' →
    Copy K (.expr r) (.expr r') → Copy K (.expr (.binary l op r)) (.expr (.binary l' op' r'))
  | logical {l l' op op' r r'} : Copy K (.expr l) (.expr l') → K.token op op' →
    Copy K (.expr r) (.expr r') → Copy K (.expr (.logical l op r)) (.expr (.logical l' op' r'))
  | ternary {c c' t t' e e'} : Copy K (.expr c) (.expr c') → Copy K (.expr t) (.expr t') →
    Copy K (.expr e) (.expr e') → Copy K (.expr (.ternary c t e)) (.expr (.ternary c' t' e'))
  | name {ref ref'} : K.Refs ref ref' → Copy K (.expr (.variable ref)) (.expr (.variable ref'))
  | assign {ref ref' e e'} : K.Refs ref ref' → Copy K (.expr e) (.expr e') →
    Copy K (.expr (.assign ref e)) (.expr (.assign ref' e'))
  | call {c c' paren paren' es es'} : Copy K (.expr c) (.expr c') → K.token paren paren' →
    Copy K (.exprs es) (.exprs es') → Copy K (.expr (.call c paren es)) (.expr (.call c' paren' es'))
  | get {o o' name name'} : Copy K (.expr o) (.expr o') → K.token name name' →
    Copy K (.expr (.get o name)) (.expr (.get o' name'))
  | set {o o' name name' e e'} : Copy K (.expr o) (.expr o') → K.token name name' →
    Copy K (.expr e) (.expr e') → Copy K (.expr (.set o name e)) (.expr (.set o' name' e'))
  | lambda {d d'} : Copy K (.function .function d) (.function .function d') →
    Copy K (.expr (.lambda d)) (.expr (.lambda d'))
  | this {ref ref'} : K.Refs ref ref' → Copy K (.expr (.this ref)) (.expr (.this ref'))
  | super {ref ref' method method'} : K.Refs ref ref' → K.token method method' →
    Copy K (.expr (.super ref method)) (.expr (.super ref' method'))
  | noExprs : Copy K (.exprs []) (.exprs [])
  | exprs {e e' es es'} : Copy K (.expr e) (.expr e') → Copy K (.exprs es) (.exprs es') →
    Copy K (.exprs (e :: es)) (.exprs (e' :: es'))
  | expression {e e'} : Copy K (.expr e) (.expr e') →
    Copy K (.stmt (.expression e)) (.stmt (.expression e'))
  | value {e e'} : Copy K (.expr e) (.expr e') → Copy K (.stmt (.value e)) (.stmt (.value e'))
  | unset {name name'} : K.token name name' →
    Copy K (.stmt (.varDecl name none)) (.stmt (.varDecl name' none))
  | initialized {name name' e e'} : K.token name name' → Copy K (.expr e) (.expr e') →
    Copy K (.stmt (.varDecl name (some e))) (.stmt (.varDecl name' (some e')))
  | block {ss ss'} : Copy K (.stmts ss) (.stmts ss') → Copy K (.stmt (.block ss)) (.stmt (.block ss'))
  | ifOnly {c c' t t'} : Copy K (.expr c) (.expr c') → Copy K (.stmt t) (.stmt t') →
    Copy K (.stmt (.ifElse c t none)) (.stmt (.ifElse c' t' none))
  | ifElse {c c' t t' e e'} : Copy K (.expr c) (.expr c') → Copy K (.stmt t) (.stmt t') →
    Copy K (.stmt e) (.stmt e') →
    Copy K (.stmt (.ifElse c t (some e))) (.stmt (.ifElse c' t' (some e')))
  | whileLoop {c c' b b'} : Copy K (.expr c) (.expr c') → Copy K (.stmt b) (.stmt b') →
    Copy K (.stmt (.whileLoop c b)) (.stmt (.whileLoop c' b'))
  | breakLoop {keyword keyword'} : K.token keyword keyword' →
    Copy K (.stmt (.breakLoop keyword)) (.stmt (.breakLoop keyword'))
  | funcDecl {d d'} : Copy K (.function .function d) (.function .function d') →
    Copy K (.stmt (.funcDecl d)) (.stmt (.funcDecl d'))
  | classDecl {name name' ref ref' ds ds'} : K.token name name' → Option.Rel K.Refs ref ref' →
    Copy K (.methods ds) (.methods ds') →
    Copy K (.stmt (.classDecl name ref ds)) (.stmt (.classDecl name' ref' ds'))
  | returned {keyword keyword'} : K.token keyword keyword' →
    Copy K (.stmt (.returnValue keyword none)) (.stmt (.returnValue keyword' none))
  | returnedValue {keyword keyword' e e'} : K.token keyword keyword' → Copy K (.expr e) (.expr e') →
    Copy K (.stmt (.returnValue keyword (some e))) (.stmt (.returnValue keyword' (some e')))
  | noStmts : Copy K (.stmts []) (.stmts [])
  | stmts {s s' ss ss'} : Copy K (.stmt s) (.stmt s') → Copy K (.stmts ss) (.stmts ss') →
    Copy K (.stmts (s :: ss)) (.stmts (s' :: ss'))
  | function {kind name name' keyword keyword' params params' body body'} :
    Option.Rel K.token name name' → K.token keyword keyword' → List.Forall₂ K.token params params' →
    Copy K (.stmts body) (.stmts body') →
    Copy K (.function kind (.mk name keyword params body))
      (.function kind (.mk name' keyword' params' body'))
  | noMethods : Copy K (.methods []) (.methods [])
  | methods {d d' ds ds'} :
    Copy K (.function (Scope.methodKind d) d) (.function (Scope.methodKind d) d') →
    Copy K (.methods ds) (.methods ds') → Copy K (.methods (d :: ds)) (.methods (d' :: ds'))

namespace Copy

variable {K K' : Likeness}

/-- The kind of a function does not matter. -/
theorem of_kind {kind kind' : BodyKind} {d d' : FunctionDecl}
    (h : Copy K (.function kind d) (.function kind d')) :
    Copy K (.function kind' d) (.function kind' d') := by
  cases h with
  | function hname hkeyword hparams hbody => exact .function hname hkeyword hparams hbody

/-! ## Copies of functions -/

section Functions

variable {kind : BodyKind} {d d' : FunctionDecl} (h : Copy K (.function kind d) (.function kind d'))
include h

/-- The names stand for each other, if the functions have names. -/
theorem function_name : Option.Rel K.token d.name d'.name := by
  cases h with
  | function hname _ _ _ => exact hname

/-- The keywords that the functions begin with stand for each other. -/
theorem function_keyword : K.token d.keyword d'.keyword := by
  cases h with
  | function _ hkeyword _ _ => exact hkeyword

/-- There are as many parameters, which stand for each other. -/
theorem function_params : List.Forall₂ K.token d.params d'.params := by
  cases h with
  | function _ _ hparams _ => exact hparams

/-- The bodies are copies. -/
theorem function_body : Copy K (.stmts d.body) (.stmts d'.body) := by
  cases h with
  | function _ _ _ hbody => exact hbody

/-- A function is shown by the same name, be it its own or that of all lambdas. -/
theorem displayName_eq : d'.displayName = d.displayName := by
  have hname := h.function_name
  unfold FunctionDecl.displayName
  generalize d.name = name at hname
  generalize d'.name = name' at hname
  cases hname with
  | none => rfl
  | some ht => exact K.lexeme ht

/-- Whether a method is an initializer is a matter of its name. -/
theorem isInitializer_eq : d'.isInitializer = d.isInitializer := by
  rw [FunctionDecl.isInitializer, h.displayName_eq, FunctionDecl.isInitializer]

/-- So the walk over the methods takes them for the same kind. -/
theorem methodKind_eq : Scope.methodKind d' = Scope.methodKind d := by
  rw [Scope.methodKind, h.isInitializer_eq, Scope.methodKind]

end Functions

end Copy

/-! ## Numbers of occurrences -/

mutual

/-- The numbers of the occurrences in an expression, from left to right; that of an assignment comes
    behind its value. -/
def Expr.numbers : Expr → List Nat
  | .literal _ => []
  | .grouping e | .unary _ e | .get e _ => e.numbers
  | .binary l _ r | .logical l _ r => l.numbers ++ r.numbers
  | .ternary c t e => c.numbers ++ (t.numbers ++ e.numbers)
  | .variable ref | .this ref | .super ref _ => [ref.id]
  | .assign ref e => e.numbers ++ [ref.id]
  | .call c _ es => c.numbers ++ exprsNumbers es
  | .set o _ e => o.numbers ++ e.numbers
  | .lambda d => d.numbers

/-- The numbers of the occurrences in expressions. -/
def exprsNumbers : List Expr → List Nat
  | [] => []
  | e :: es => e.numbers ++ exprsNumbers es

/-- The numbers of the occurrences in an expression that may be left out. -/
def optionalNumbers : Option Expr → List Nat
  | none => []
  | some e => e.numbers

/-- The numbers of the occurrences in a statement. -/
def Stmt.numbers : Stmt → List Nat
  | .expression e | .value e => e.numbers
  | .varDecl _ e | .returnValue _ e => optionalNumbers e
  | .block ss => stmtsNumbers ss
  | .ifElse c t e => c.numbers ++ (t.numbers ++ elseNumbers e)
  | .whileLoop c b => c.numbers ++ b.numbers
  | .breakLoop _ => []
  | .funcDecl d => d.numbers
  | .classDecl _ ref ds => (ref.map Ref.id).toList ++ methodsNumbers ds

/-- The numbers of the occurrences in statements. -/
def stmtsNumbers : List Stmt → List Nat
  | [] => []
  | s :: ss => s.numbers ++ stmtsNumbers ss

/-- The numbers of the occurrences in a branch that may be left out. -/
def elseNumbers : Option Stmt → List Nat
  | none => []
  | some s => s.numbers

/-- The numbers of the occurrences in a function. -/
def FunctionDecl.numbers : FunctionDecl → List Nat
  | .mk _ _ _ body => stmtsNumbers body

/-- The numbers of the occurrences in methods. -/
def methodsNumbers : List FunctionDecl → List Nat
  | [] => []
  | d :: ds => d.numbers ++ methodsNumbers ds

end

/-- The numbers of the occurrences in a phrase. -/
def Phrase.numbers : Phrase → List Nat
  | .expr e => e.numbers
  | .exprs es => exprsNumbers es
  | .stmt s => s.numbers
  | .stmts ss => stmtsNumbers ss
  | .function _ d => d.numbers
  | .methods ds => methodsNumbers ds

/-! ## Other numbers

  If numbers correspond by a function the copy is the tree with its numbers exchanged. -/

/-- The occurrence with another number. -/
def Ref.renumber (f : Nat → Nat) (ref : Ref) : Ref := ⟨f ref.id, ref.name⟩

mutual

/-- The expression with other numbers. -/
def Expr.renumber (f : Nat → Nat) : Expr → Expr
  | .literal l => .literal l
  | .grouping e => .grouping (e.renumber f)
  | .unary op e => .unary op (e.renumber f)
  | .binary l op r => .binary (l.renumber f) op (r.renumber f)
  | .logical l op r => .logical (l.renumber f) op (r.renumber f)
  | .ternary c t e => .ternary (c.renumber f) (t.renumber f) (e.renumber f)
  | .variable ref => .variable (ref.renumber f)
  | .assign ref e => .assign (ref.renumber f) (e.renumber f)
  | .call c paren es => .call (c.renumber f) paren (renumberExprs f es)
  | .get o name => .get (o.renumber f) name
  | .set o name e => .set (o.renumber f) name (e.renumber f)
  | .lambda d => .lambda (d.renumber f)
  | .this ref => .this (ref.renumber f)
  | .super ref method => .super (ref.renumber f) method

/-- The expressions with other numbers. -/
def renumberExprs (f : Nat → Nat) : List Expr → List Expr
  | [] => []
  | e :: es => e.renumber f :: renumberExprs f es

/-- The expression, if there is one, with other numbers. -/
def renumberOptional (f : Nat → Nat) : Option Expr → Option Expr
  | none => none
  | some e => some (e.renumber f)

/-- The statement with other numbers. -/
def Stmt.renumber (f : Nat → Nat) : Stmt → Stmt
  | .expression e => .expression (e.renumber f)
  | .value e => .value (e.renumber f)
  | .varDecl name e => .varDecl name (renumberOptional f e)
  | .block ss => .block (renumberStmts f ss)
  | .ifElse c t e => .ifElse (c.renumber f) (t.renumber f) (renumberElse f e)
  | .whileLoop c b => .whileLoop (c.renumber f) (b.renumber f)
  | .breakLoop keyword => .breakLoop keyword
  | .funcDecl d => .funcDecl (d.renumber f)
  | .classDecl name ref ds => .classDecl name (ref.map (Ref.renumber f)) (renumberMethods f ds)
  | .returnValue keyword e => .returnValue keyword (renumberOptional f e)

/-- The statements with other numbers. -/
def renumberStmts (f : Nat → Nat) : List Stmt → List Stmt
  | [] => []
  | s :: ss => s.renumber f :: renumberStmts f ss

/-- The branch, if there is one, with other numbers. -/
def renumberElse (f : Nat → Nat) : Option Stmt → Option Stmt
  | none => none
  | some s => some (s.renumber f)

/-- The function with other numbers. -/
def FunctionDecl.renumber (f : Nat → Nat) : FunctionDecl → FunctionDecl
  | .mk name keyword params body => .mk name keyword params (renumberStmts f body)

/-- The methods with other numbers. -/
def renumberMethods (f : Nat → Nat) : List FunctionDecl → List FunctionDecl
  | [] => []
  | d :: ds => d.renumber f :: renumberMethods f ds

end

/-- The phrase with other numbers. -/
def Phrase.renumber (f : Nat → Nat) : Phrase → Phrase
  | .expr e => .expr (e.renumber f)
  | .exprs es => .exprs (renumberExprs f es)
  | .stmt s => .stmt (s.renumber f)
  | .stmts ss => .stmts (renumberStmts f ss)
  | .function kind d => .function kind (d.renumber f)
  | .methods ds => .methods (renumberMethods f ds)

namespace Copy

variable {K K' : Likeness}

/-- Another likeness does as well if it has what stands for each other in the phrase. -/
theorem imp {p q : Phrase} (h : Copy K p q)
    (hn : ∀ i ∈ p.numbers, ∀ i', K.number i i' → K'.number i i')
    (ht : ∀ t t', K.token t t' → K'.token t t') : Copy K' p q := by
  have href : ∀ {r r' : Ref}, (∀ i', K.number r.id i' → K'.number r.id i') → K.Refs r r' → K'.Refs r r' :=
    fun hi hr => ⟨hi _ hr.number, ht _ _ hr.token⟩
  -- The numbers of the parts are among those of the whole, which is all that most constructors need.
  induction h with
  | classDecl hname hr _ ih =>
    refine .classDecl (ht _ _ hname) ?_ (ih fun i hi => hn i (List.mem_append_right _ hi))
    cases hr with
    | none => exact .none
    | some hr => exact .some (href (hn _ (List.mem_append_left _ (by simp))) hr)
  | function hname hkeyword hparams _ ih =>
    refine .function ?_ (ht _ _ hkeyword) (hparams.imp ht) (ih hn)
    cases hname with
    | none => exact .none
    | some hname => exact .some (ht _ _ hname)
  | _ =>
    simp only [Phrase.numbers, Expr.numbers, exprsNumbers, optionalNumbers, Stmt.numbers, stmtsNumbers,
      elseNumbers, methodsNumbers, List.mem_append, List.mem_singleton, or_imp, forall_and] at *
    constructor <;> simp_all

/-- A copy is one under any likeness that lets more stand for each other. -/
theorem mono {p q : Phrase} (h : Copy K p q) (hle : K.Le K') : Copy K' p q :=
  h.imp (fun _ _ _ => hle.number) fun _ _ => hle.token

/-- **A copy with the same tokens is the renumbered phrase.** -/
theorem eq_renumber {p q : Phrase} (h : Copy K p q) {f : Nat → Nat}
    (hn : ∀ i i', K.number i i' → i' = f i) (ht : ∀ t t', K.token t t' → t' = t) :
    q = p.renumber f := by
  have href : ∀ {r r' : Ref}, K.Refs r r' → r' = r.renumber f := by
    rintro ⟨id, name⟩ ⟨id', name'⟩ ⟨hid, hname⟩
    cases hn _ _ hid
    cases ht _ _ hname
    rfl
  -- Two rules have parts that are not trees; in all others the parts are equal by induction.
  induction h with
  | @classDecl _ _ ref ref' _ _ hname hr _ ih =>
    have href' : ref' = ref.map (Ref.renumber f) := by
      cases hr with
      | none => rfl
      | some hr => exact congrArg some (href hr)
    have hname' := ht _ _ hname
    simp_all only [Phrase.renumber, Stmt.renumber, Phrase.methods.injEq]
  | @function _ name name' _ _ params params' _ _ hname hkeyword hparams _ ih =>
    have hname' : name' = name := by
      cases hname with
      | none => rfl
      | some hname => exact congrArg some (ht _ _ hname)
    have hparams' : params' = params := by
      have heq : List.Forall₂ (· = ·) params params' := hparams.imp fun t t' h => (ht t t' h).symm
      exact (List.forall₂_eq_eq_eq ▸ heq : params = params').symm
    have hkeyword' := ht _ _ hkeyword
    simp_all only [Phrase.renumber, FunctionDecl.renumber, Phrase.stmts.injEq]
  | _ =>
    simp_all [Phrase.renumber, Expr.renumber, renumberExprs, renumberOptional, Stmt.renumber,
      renumberStmts, renumberElse, renumberMethods]
    try and_intros <;> first | exact ht _ _ ‹_› | exact href ‹_›

end Copy

/-! ## Diagnostics -/

/-- The errors are the same, at tokens that stand for each other. -/
structure RuntimeError.Like (K : Likeness) (e e' : RuntimeError) : Prop where
  token : K.token e.token e'.token
  fault : e'.fault = e.fault

/-- The diagnostics are the same, at tokens that stand for each other. -/
inductive Diagnostic.Like (K : Likeness) : Diagnostic → Diagnostic → Prop where
  | lexical {line fault} : Like K (.lexical line fault) (.lexical line fault)
  | syntactic {t t' fault} : K.token t t' → Like K (.syntactic t fault) (.syntactic t' fault)
  | scoping {t t' fault} : K.token t t' → Like K (.scoping t fault) (.scoping t' fault)
  | runtime {e e'} : e.Like K e' → Like K (.runtime e) (.runtime e')

theorem RuntimeError.Like.eq {K : Likeness} {e e' : RuntimeError} (h : e.Like K e')
    (ht : ∀ t t', K.token t t' → t' = t) : e' = e := by
  obtain ⟨token, fault⟩ := e
  obtain ⟨token', fault'⟩ := e'
  cases ht _ _ h.token
  cases h.fault
  rfl

/-- With the same tokens the diagnostics are the same. -/
theorem Diagnostic.Like.eq {K : Likeness} {d d' : Diagnostic} (h : d.Like K d')
    (ht : ∀ t t', K.token t t' → t' = t) : d' = d := by
  cases h with
  | lexical => rfl
  | syntactic h => rw [ht _ _ h]
  | scoping h => rw [ht _ _ h]
  | runtime h => rw [h.eq ht]

theorem diagnostics_eq {K : Likeness} {ds ds' : List Diagnostic}
    (h : List.Forall₂ (Diagnostic.Like K) ds ds') (ht : ∀ t t', K.token t t' → t' = t) : ds' = ds := by
  have heq : List.Forall₂ (· = ·) ds ds' := h.imp fun d d' h => (h.eq ht).symm
  exact (List.forall₂_eq_eq_eq ▸ heq : ds = ds').symm

end Lox
