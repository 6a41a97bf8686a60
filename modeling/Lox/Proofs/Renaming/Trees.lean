import Mathlib.Logic.Equiv.Basic
import Lox.Proofs.Copies.Trees

/-!
  Renaming a local variable.

  A local variable is declared by a block or by a function, and its occurrences are those that were found to
  mean that declaration.  To rename it is to change the lexeme of the declaration and of these occurrences
  (`Stmt.rename`).

  * The blocks and functions of a program are numbered in the order in which they begin, and `Renaming` names
    one of them, with the old and the new name and the distances that were found.
  * A walk along the tree keeps, for the scopes around a place, whether they are the one that declares the
    variable: these are the marks of the place.  An occurrence means the variable if the distance that was
    found for it leads to a mark (`Renaming.meant`).
  * Where there is a mark the old name and the new one change places (`Renaming.name`).  The new name does not
    occur, so that this is a renaming of the old one; written as an exchange it can be undone by itself.

  Proofs use a relation between trees, `Renamed`, in which any blocks and functions may be marked, and which
  says at each constructor what has become of the tokens.  `renamed_rename` connects the two.
-/

namespace Lox

/-- The parameters and the statements of a block or of a function.  A block has no parameters. -/
structure LocalScope where
  params : List Token
  body : List Stmt

/-! ## Blocks and functions in their order -/

mutual

/-- The local scopes in an expression. -/
def Expr.localScopes : Expr → List LocalScope
  | .literal _ | .variable _ | .this _ | .super _ _ => []
  | .grouping e | .unary _ e | .get e _ | .assign _ e => e.localScopes
  | .binary l _ r | .logical l _ r => l.localScopes ++ r.localScopes
  | .ternary c t e => c.localScopes ++ (t.localScopes ++ e.localScopes)
  | .call c _ es => c.localScopes ++ exprsLocalScopes es
  | .set o _ e => o.localScopes ++ e.localScopes
  | .lambda d => d.localScopes

/-- The local scopes in expressions. -/
def exprsLocalScopes : List Expr → List LocalScope
  | [] => []
  | e :: es => e.localScopes ++ exprsLocalScopes es

/-- The local scopes in an expression that may be left out. -/
def optionalLocalScopes : Option Expr → List LocalScope
  | none => []
  | some e => e.localScopes

/-- The local scopes in a statement. -/
def Stmt.localScopes : Stmt → List LocalScope
  | .expression e | .value e => e.localScopes
  | .varDecl _ e | .returnValue _ e => optionalLocalScopes e
  | .block ss => ⟨[], ss⟩ :: stmtsLocalScopes ss
  | .ifElse c t e => c.localScopes ++ (t.localScopes ++ elseLocalScopes e)
  | .whileLoop c b => c.localScopes ++ b.localScopes
  | .breakLoop _ => []
  | .funcDecl d => d.localScopes
  | .classDecl _ _ ds => methodsLocalScopes ds

/-- The local scopes in statements. -/
def stmtsLocalScopes : List Stmt → List LocalScope
  | [] => []
  | s :: ss => s.localScopes ++ stmtsLocalScopes ss

/-- The local scopes in a branch that may be left out. -/
def elseLocalScopes : Option Stmt → List LocalScope
  | none => []
  | some s => s.localScopes

/-- The local scope of a function, and those in it. -/
def FunctionDecl.localScopes : FunctionDecl → List LocalScope
  | .mk _ _ params body => ⟨params, body⟩ :: stmtsLocalScopes body

/-- The local scopes in methods. -/
def methodsLocalScopes : List FunctionDecl → List LocalScope
  | [] => []
  | d :: ds => d.localScopes ++ methodsLocalScopes ds

end

/-- The local scopes in a phrase. -/
def Phrase.localScopes : Phrase → List LocalScope
  | .expr e => e.localScopes
  | .exprs es => exprsLocalScopes es
  | .stmt s => s.localScopes
  | .stmts ss => stmtsLocalScopes ss
  | .function _ d => d.localScopes
  | .methods ds => methodsLocalScopes ds

/-! ## Renaming

  Occurrences are exchanged in the marked scope and in all scopes inside it that do not declare the name anew;
  since the resolver's distance says which scope is meant, it decides this. -/

/-- Whether the scope that lies a distance outward is marked. -/
def markAt (marks : List Bool) (distance : Option Nat) : Bool := (distance.bind (marks[·]?)).getD false

/-- A new name for a local variable. -/
structure Renaming where
  old : String
  new : String
  /-- The number of the local scope that declares the variable. -/
  scope : Nat
  /-- At which distances the declarations of the occurrences are. -/
  found : Resolution

namespace Renaming

variable (r : Renaming)

/-- The token with the new name, if it means the variable. -/
def token (mark : Bool) (t : Token) : Token :=
  if mark ∧ t.lexeme = r.old then { t with lexeme := r.new } else t

/-- Whether the declaration of the occurrence was found in a scope that is marked. -/
def meant (marks : List Bool) (ref : Ref) : Bool := markAt marks r.found[ref.id]?

/-- The occurrence with the new name, if it means the variable. -/
def ref (marks : List Bool) (ref : Ref) : Ref := ⟨ref.id, r.token (r.meant marks ref) ref.name⟩

/-- The marks of the scopes around methods, which declare no variable. -/
def classMarks (extending : Bool) : List Bool := false :: if extending then [false] else []

end Renaming

open Renaming (classMarks)

mutual

/-- The expression with the variable renamed; `k` is the number of the next local scope. -/
def Expr.rename (r : Renaming) (k : Nat) (marks : List Bool) : Expr → Expr
  | .literal l => .literal l
  | .grouping e => .grouping (e.rename r k marks)
  | .unary op e => .unary op (e.rename r k marks)
  | .binary a op b => .binary (a.rename r k marks) op (b.rename r (k + a.localScopes.length) marks)
  | .logical a op b => .logical (a.rename r k marks) op (b.rename r (k + a.localScopes.length) marks)
  | .ternary c t e => .ternary (c.rename r k marks) (t.rename r (k + c.localScopes.length) marks)
    (e.rename r (k + c.localScopes.length + t.localScopes.length) marks)
  | .variable ref => .variable (r.ref marks ref)
  | .assign ref e => .assign (r.ref marks ref) (e.rename r k marks)
  | .call c paren es =>
    .call (c.rename r k marks) paren (renameExprs r (k + c.localScopes.length) marks es)
  | .get o name => .get (o.rename r k marks) name
  | .set o name e => .set (o.rename r k marks) name (e.rename r (k + o.localScopes.length) marks)
  | .lambda d => .lambda (d.rename r k marks)
  | .this ref => .this ref
  | .super ref method => .super ref method

/-- The expressions with the variable renamed. -/
def renameExprs (r : Renaming) (k : Nat) (marks : List Bool) : List Expr → List Expr
  | [] => []
  | e :: es => e.rename r k marks :: renameExprs r (k + e.localScopes.length) marks es

/-- The expression, if there is one, with the variable renamed. -/
def renameOptional (r : Renaming) (k : Nat) (marks : List Bool) : Option Expr → Option Expr
  | none => none
  | some e => some (e.rename r k marks)

/-- The statement with the variable renamed.  A name that the statement declares belongs to the innermost
    scope. -/
def Stmt.rename (r : Renaming) (k : Nat) (marks : List Bool) : Stmt → Stmt
  | .expression e => .expression (e.rename r k marks)
  | .value e => .value (e.rename r k marks)
  | .varDecl name e => .varDecl (r.token (marks.headD false) name) (renameOptional r k marks e)
  | .block ss => .block (renameStmts r (k + 1) ((k == r.scope) :: marks) ss)
  | .ifElse c t e => .ifElse (c.rename r k marks) (t.rename r (k + c.localScopes.length) marks)
    (renameElse r (k + c.localScopes.length + t.localScopes.length) marks e)
  | .whileLoop c b => .whileLoop (c.rename r k marks) (b.rename r (k + c.localScopes.length) marks)
  | .breakLoop keyword => .breakLoop keyword
  | .funcDecl d => .funcDecl (d.rename r k marks)
  | .classDecl name ref ds =>
    .classDecl name (ref.map (r.ref marks)) (renameMethods r k (classMarks ref.isSome ++ marks) ds)
  | .returnValue keyword e => .returnValue keyword (renameOptional r k marks e)

/-- The statements with the variable renamed. -/
def renameStmts (r : Renaming) (k : Nat) (marks : List Bool) : List Stmt → List Stmt
  | [] => []
  | s :: ss => s.rename r k marks :: renameStmts r (k + s.localScopes.length) marks ss

/-- The branch, if there is one, with the variable renamed. -/
def renameElse (r : Renaming) (k : Nat) (marks : List Bool) : Option Stmt → Option Stmt
  | none => none
  | some s => some (s.rename r k marks)

/-- The function with the variable renamed.  Its parameters belong to its own scope. -/
def FunctionDecl.rename (r : Renaming) (k : Nat) (marks : List Bool) : FunctionDecl → FunctionDecl
  | .mk name keyword params body => .mk name keyword (params.map (r.token (k == r.scope)))
    (renameStmts r (k + 1) ((k == r.scope) :: marks) body)

/-- The methods with the variable renamed. -/
def renameMethods (r : Renaming) (k : Nat) (marks : List Bool) : List FunctionDecl → List FunctionDecl
  | [] => []
  | d :: ds => d.rename r k marks :: renameMethods r (k + d.localScopes.length) marks ds

end

/-- The phrase with the variable renamed. -/
def Phrase.rename (r : Renaming) (k : Nat) (marks : List Bool) : Phrase → Phrase
  | .expr e => .expr (e.rename r k marks)
  | .exprs es => .exprs (renameExprs r k marks es)
  | .stmt s => .stmt (s.rename r k marks)
  | .stmts ss => .stmts (renameStmts r k marks ss)
  | .function kind d => .function kind (d.rename r k marks)
  | .methods ds => .methods (renameMethods r k marks ds)

/-- The program with the variable renamed. -/
def Renaming.program (r : Renaming) (program : List Stmt) : List Stmt := renameStmts r 0 [] program

/-! ## Names -/

namespace Renaming

variable (r : Renaming)

/-- What a name of a scope is called behind the renaming.  In a scope that is marked the old name and the
    new one change places. -/
def name (mark : Bool) (x : String) : String := if mark then Equiv.swap r.old r.new x else x

/-- To exchange two names twice changes nothing. -/
@[simp] theorem name_name (mark : Bool) (x : String) : r.name mark (r.name mark x) = x := by
  cases mark with
  | true => exact Equiv.swap_apply_self r.old r.new x
  | false => rfl

/-- Different names stay different. -/
theorem name_inj {mark : Bool} {x y : String} : r.name mark x = r.name mark y ↔ x = y := by
  constructor
  · intro h
    rw [← r.name_name mark x, h, r.name_name]
  · exact congrArg _

/-- Any other name stays as it is. -/
theorem name_of_ne (mark : Bool) {x : String} (hold : x ≠ r.old) (hnew : x ≠ r.new) :
    r.name mark x = x := by
  cases mark with
  | true => exact Equiv.swap_apply_of_ne_of_ne hold hnew
  | false => rfl

/-- The tokens are the same, but for the name of the variable. -/
structure Tok (mark : Bool) (t t' : Token) : Prop where
  fresh : t.lexeme ≠ r.new
  eq : t' = r.token mark t

/-- The occurrences are the same, but for the name of the variable. -/
structure Refs (marks : List Bool) (ref ref' : Ref) : Prop where
  fresh : ref.name.lexeme ≠ r.new
  eq : ref' = r.ref marks ref

variable {r}

namespace Tok

variable {mark : Bool} {t t' : Token} (h : r.Tok mark t t')
include h

/-- A token gets the name that its scope has for it. -/
theorem lexeme : t'.lexeme = r.name mark t.lexeme := by
  have hfresh := h.fresh
  rw [h.eq, token]
  cases mark with
  | false => rfl
  | true =>
    by_cases hold : t.lexeme = r.old
    · rw [if_pos ⟨rfl, hold⟩, hold]
      exact (Equiv.swap_apply_left r.old r.new).symm
    · rw [if_neg fun h => hold h.2]
      exact (Equiv.swap_apply_of_ne_of_ne hold hfresh).symm

end Tok

/-- An occurrence is renamed as the scope is that it means. -/
theorem Refs.token {marks : List Bool} {o o' : Ref} (h : r.Refs marks o o') :
    r.Tok (r.meant marks o) o.name o'.name :=
  ⟨h.fresh, by rw [h.eq]; rfl⟩

/-- An occurrence keeps its number. -/
theorem Refs.id {marks : List Bool} {o o' : Ref} (h : r.Refs marks o o') : o'.id = o.id := by
  rw [h.eq]
  rfl

end Renaming

/-- The names that tell scopes around methods are neither the old nor the new one. -/
structure Renaming.Plain (r : Renaming) : Prop where
  this : r.old ≠ "this" ∧ r.new ≠ "this"
  super : r.old ≠ "super" ∧ r.new ≠ "super"

/-- The variable is not called `this`, and is not going to be. -/
theorem Renaming.Plain.name_this {r : Renaming} (h : r.Plain) (mark : Bool) : r.name mark "this" = "this" :=
  r.name_of_ne mark h.this.1.symm h.this.2.symm

/-- Nor `super`. -/
theorem Renaming.Plain.name_super {r : Renaming} (h : r.Plain) (mark : Bool) : r.name mark "super" = "super" :=
  r.name_of_ne mark h.super.1.symm h.super.2.symm

/-! ## Trees that are the same but for the name -/

/-- The second phrase is the first with the variable renamed, within scopes with these marks.  Any local
    scopes in the phrase may be marked, as long as no function or class has the name there. -/
inductive Renamed (r : Renaming) : List Bool → Phrase → Phrase → Prop where
  | literal {marks l} : Renamed r marks (.expr (.literal l)) (.expr (.literal l))
  | grouping {marks e e'} : Renamed r marks (.expr e) (.expr e') →
    Renamed r marks (.expr (.grouping e)) (.expr (.grouping e'))
  | unary {marks op e e'} : Renamed r marks (.expr e) (.expr e') →
    Renamed r marks (.expr (.unary op e)) (.expr (.unary op e'))
  | binary {marks a op b a' b'} : Renamed r marks (.expr a) (.expr a') →
    Renamed r marks (.expr b) (.expr b') →
    Renamed r marks (.expr (.binary a op b)) (.expr (.binary a' op b'))
  | logical {marks a op b a' b'} : Renamed r marks (.expr a) (.expr a') →
    Renamed r marks (.expr b) (.expr b') →
    Renamed r marks (.expr (.logical a op b)) (.expr (.logical a' op b'))
  | ternary {marks c t e c' t' e'} : Renamed r marks (.expr c) (.expr c') →
    Renamed r marks (.expr t) (.expr t') → Renamed r marks (.expr e) (.expr e') →
    Renamed r marks (.expr (.ternary c t e)) (.expr (.ternary c' t' e'))
  | name {marks ref ref'} : r.Refs marks ref ref' →
    Renamed r marks (.expr (.variable ref)) (.expr (.variable ref'))
  | assign {marks ref e ref' e'} : r.Refs marks ref ref' → Renamed r marks (.expr e) (.expr e') →
    Renamed r marks (.expr (.assign ref e)) (.expr (.assign ref' e'))
  | call {marks c paren es c' es'} : Renamed r marks (.expr c) (.expr c') →
    Renamed r marks (.exprs es) (.exprs es') →
    Renamed r marks (.expr (.call c paren es)) (.expr (.call c' paren es'))
  | get {marks o name o'} : Renamed r marks (.expr o) (.expr o') →
    Renamed r marks (.expr (.get o name)) (.expr (.get o' name))
  | set {marks o name e o' e'} : Renamed r marks (.expr o) (.expr o') →
    Renamed r marks (.expr e) (.expr e') →
    Renamed r marks (.expr (.set o name e)) (.expr (.set o' name e'))
  | lambda {marks d d'} : Renamed r marks (.function .function d) (.function .function d') →
    Renamed r marks (.expr (.lambda d)) (.expr (.lambda d'))
  | this {marks} {ref : Ref} : ref.name.lexeme = "this" →
    Renamed r marks (.expr (.this ref)) (.expr (.this ref))
  | super {marks} {ref : Ref} {method} : ref.name.lexeme = "super" →
    Renamed r marks (.expr (.super ref method)) (.expr (.super ref method))
  | noExprs {marks} : Renamed r marks (.exprs []) (.exprs [])
  | exprs {marks e es e' es'} : Renamed r marks (.expr e) (.expr e') →
    Renamed r marks (.exprs es) (.exprs es') → Renamed r marks (.exprs (e :: es)) (.exprs (e' :: es'))
  | expression {marks e e'} : Renamed r marks (.expr e) (.expr e') →
    Renamed r marks (.stmt (.expression e)) (.stmt (.expression e'))
  | value {marks e e'} : Renamed r marks (.expr e) (.expr e') →
    Renamed r marks (.stmt (.value e)) (.stmt (.value e'))
  | unset {marks name name'} : r.Tok (marks.headD false) name name' →
    Renamed r marks (.stmt (.varDecl name none)) (.stmt (.varDecl name' none))
  | initialized {marks name e name' e'} : r.Tok (marks.headD false) name name' →
    Renamed r marks (.expr e) (.expr e') →
    Renamed r marks (.stmt (.varDecl name (some e))) (.stmt (.varDecl name' (some e')))
  | block {marks mark ss ss'} : Renamed r (mark :: marks) (.stmts ss) (.stmts ss') →
    Renamed r marks (.stmt (.block ss)) (.stmt (.block ss'))
  | ifOnly {marks c t c' t'} : Renamed r marks (.expr c) (.expr c') →
    Renamed r marks (.stmt t) (.stmt t') →
    Renamed r marks (.stmt (.ifElse c t none)) (.stmt (.ifElse c' t' none))
  | ifElse {marks c t e c' t' e'} : Renamed r marks (.expr c) (.expr c') →
    Renamed r marks (.stmt t) (.stmt t') → Renamed r marks (.stmt e) (.stmt e') →
    Renamed r marks (.stmt (.ifElse c t (some e))) (.stmt (.ifElse c' t' (some e')))
  | whileLoop {marks c b c' b'} : Renamed r marks (.expr c) (.expr c') →
    Renamed r marks (.stmt b) (.stmt b') →
    Renamed r marks (.stmt (.whileLoop c b)) (.stmt (.whileLoop c' b'))
  | breakLoop {marks keyword} :
    Renamed r marks (.stmt (.breakLoop keyword)) (.stmt (.breakLoop keyword))
  | funcDecl {marks d d'} :
    r.Tok (marks.headD false) (d.name.getD d.keyword) (d.name.getD d.keyword) →
    Renamed r marks (.function .function d) (.function .function d') →
    Renamed r marks (.stmt (.funcDecl d)) (.stmt (.funcDecl d'))
  | classDecl {marks name ref ds ref' ds'} : r.Tok (marks.headD false) name name →
    Option.Rel (r.Refs marks) ref ref' →
    Renamed r (classMarks ref.isSome ++ marks) (.methods ds) (.methods ds') →
    Renamed r marks (.stmt (.classDecl name ref ds)) (.stmt (.classDecl name ref' ds'))
  | returned {marks keyword} :
    Renamed r marks (.stmt (.returnValue keyword none)) (.stmt (.returnValue keyword none))
  | returnedValue {marks keyword e e'} : Renamed r marks (.expr e) (.expr e') →
    Renamed r marks (.stmt (.returnValue keyword (some e))) (.stmt (.returnValue keyword (some e')))
  | noStmts {marks} : Renamed r marks (.stmts []) (.stmts [])
  | stmts {marks s ss s' ss'} : Renamed r marks (.stmt s) (.stmt s') →
    Renamed r marks (.stmts ss) (.stmts ss') → Renamed r marks (.stmts (s :: ss)) (.stmts (s' :: ss'))
  | function {marks mark kind name keyword params body params' body'} :
    List.Forall₂ (r.Tok mark) params params' → Renamed r (mark :: marks) (.stmts body) (.stmts body') →
    Renamed r marks (.function kind (.mk name keyword params body))
      (.function kind (.mk name keyword params' body'))
  | noMethods {marks} : Renamed r marks (.methods []) (.methods [])
  | methods {marks d ds d' ds'} :
    Renamed r marks (.function (Scope.methodKind d) d) (.function (Scope.methodKind d) d') →
    Renamed r marks (.methods ds) (.methods ds') → Renamed r marks (.methods (d :: ds)) (.methods (d' :: ds'))

namespace Renamed

variable {r : Renaming} {marks : List Bool}

/-- The kind of a function does not matter. -/
theorem of_kind {kind kind' : BodyKind} {d d' : FunctionDecl}
    (h : Renamed r marks (.function kind d) (.function kind d')) :
    Renamed r marks (.function kind' d) (.function kind' d') := by
  cases h with
  | function hparams hbody => exact .function hparams hbody

section Functions

variable {kind : BodyKind} {d d' : FunctionDecl} (h : Renamed r marks (.function kind d) (.function kind d'))
include h

theorem function_name : d'.name = d.name := by
  cases h with
  | function _ _ => rfl

theorem function_keyword : d'.keyword = d.keyword := by
  cases h with
  | function _ _ => rfl

/-- The parameters and the body stand in one scope, which may be marked. -/
theorem function_body : ∃ mark, List.Forall₂ (r.Tok mark) d.params d'.params ∧
    Renamed r (mark :: marks) (.stmts d.body) (.stmts d'.body) := by
  cases h with
  | function hparams hbody => exact ⟨_, hparams, hbody⟩

/-- A function is displayed by its name, which is not renamed. -/
theorem displayName_eq : d'.displayName = d.displayName := by
  rw [FunctionDecl.displayName, h.function_name, FunctionDecl.displayName]

/-- What is an initializer stays one. -/
theorem isInitializer_eq : d'.isInitializer = d.isInitializer := by
  rw [FunctionDecl.isInitializer, h.displayName_eq, FunctionDecl.isInitializer]

/-- A method stays of its kind. -/
theorem methodKind_eq : Scope.methodKind d' = Scope.methodKind d := by
  rw [Scope.methodKind, h.isInitializer_eq, Scope.methodKind]

end Functions

end Renamed

end Lox
