import Mathlib.Data.List.Pairwise
import Lox.Proofs.Renaming.Trees
import Lox.Proofs.Scope.Programs
import Lox.Proofs.Scope.Recorded

/-!
  What a local scope declares.

  In a program about which nothing is reported the names that a block or a function declares are all different.
  So where a variable or a parameter is declared no function or class has its name, and the variable can be
  renamed (`clear_of_declares`).

  1. The blocks and functions of a program are the sites at which the walk opens a scope
     (`opens_of_localScopes`); with the program they are settled.
  2. In a settled list of statements each name that is declared was new to the scope, and is claimed from then
     on (`Scope.Settled.declared`).  So none of the declarations behind it has the same name
     (`Scope.Settled.declarations`).
  3. The names of functions and classes are printed and cannot be renamed (`Stmt.titles`); a scope that declares
     the variable has none of that name (`Renaming.Spares`).

  With this the renaming of a tree is one in the sense of `Renamed` (`renamed_rename`), by an induction over the
  tree that carries the numbers of the scopes, the marks, and that the titles of a marked scope are spared.
-/

namespace Lox

open Scope

/-- The scope declares a variable or a parameter of the name. -/
inductive LocalScope.Declares (scope : LocalScope) : String → Prop where
  | param {t : Token} : t ∈ scope.params → Declares scope t.lexeme
  | varDecl {t : Token} {initializer : Option Expr} : .varDecl t initializer ∈ scope.body →
    Declares scope t.lexeme

/-! ## Statements -/

mutual

/-- The names of the functions and classes that a statement declares. -/
def Stmt.titles : Stmt → List Token
  | .funcDecl d => [d.name.getD d.keyword]
  | .classDecl name _ _ => [name]
  | .ifElse _ t e => t.titles ++ elseTitles e
  | .whileLoop _ b => b.titles
  | .expression _ | .value _ | .varDecl _ _ | .block _ | .breakLoop _ | .returnValue _ _ => []

/-- The names of the functions and classes that a branch declares. -/
def elseTitles : Option Stmt → List Token
  | none => []
  | some s => s.titles

end

/-- The names of the functions and classes that statements declare. -/
def titles (ss : List Stmt) : List Token := ss.flatMap Stmt.titles

/-- The names of the functions and classes that a phrase declares in the scope around it. -/
def Phrase.titles : Phrase → List Token
  | .stmt s => s.titles
  | .stmts ss => Lox.titles ss
  | _ => []

/-- The names that a statement declares in the scope around it. -/
def Stmt.declared : Stmt → List Token
  | .varDecl name _ => [name]
  | s => s.titles

/-- A statement that is quiet declares no function or class. -/
theorem Formed.titles_eq_nil {s : Stmt} {is : List Nat} (h : Formed (.stmt s) is) (hq : s.IsQuiet) :
    s.titles = [] := by
  match s with
  | .expression _ | .value _ | .block _ | .breakLoop _ | .returnValue _ _ => rfl
  | .varDecl _ _ | .funcDecl _ | .classDecl _ _ _ => exact absurd hq id
  | .ifElse c t none =>
    cases h with
    | ifOnly ht _ h => rw [Stmt.titles, h.titles_eq_nil ht, elseTitles, List.append_nil]
  | .ifElse c t (some e) =>
    cases h with
    | ifElse ht he _ h h' =>
      rw [Stmt.titles, h.titles_eq_nil ht, elseTitles, h'.titles_eq_nil he, List.append_nil]
  | .whileLoop c b =>
    cases h with
    | whileLoop hb _ h => rw [Stmt.titles, h.titles_eq_nil hb]

section Statements

variable {R : Resolution} {ctx : Context} {w : Walk} {ls : List Layer}

/-- What the innermost scope does not have in the end it has not had before. -/
theorem Scope.Unclaimed.of_grown {name : String} {w w' : Walk} (h : Unclaimed name w')
    (hg : Grown w.scopes w'.scopes) : Unclaimed name w := by
  intro a ha
  rw [Unclaimed] at h
  generalize w.scopes = as, w'.scopes = as' at hg h ha
  cases hg with
  | nil => cases ha
  | @cons a a' rest hadds =>
    cases ha
    refine Bool.eq_false_iff.mpr fun hx => ?_
    exact Bool.eq_false_iff.mp (h a' rfl) (hadds.keeps name hx)

/-- A name that a statement declares is new before it, and there behind it. -/
theorem Scope.Settled.declared {s : Stmt} (h : Settled R ⟨⟨ctx, w, .stmt s⟩, ls⟩) :
    ∀ t ∈ s.declared, Unclaimed t.lexeme w ∧ Claims t.lexeme w (walkStmt ctx s w) := by
  have hquiet : s.declared = s.titles → s.IsQuiet →
      ∀ t ∈ s.declared, Unclaimed t.lexeme w ∧ Claims t.lexeme w (walkStmt ctx s w) := by
    intro hs hq t ht
    obtain ⟨is, hsits⟩ := h
    rw [hs, hsits.formed.titles_eq_nil hq] at ht
    cases ht
  -- Each kind of declaration claims its name; the other statements declare nothing.
  cases s with
  | varDecl name e =>
    obtain ⟨-, hnew, hclaims⟩ := h.varDecl
    intro t ht
    cases List.mem_singleton.mp ht
    exact ⟨hnew, hclaims⟩
  | funcDecl d =>
    obtain ⟨name, hname, -, hnew, hscopes⟩ := h.funcDecl
    intro t ht
    have ht' : t = d.name.getD d.keyword := List.mem_singleton.mp ht
    rw [hname] at ht'
    cases ht'
    exact ⟨hnew, (Claims.bind hnew).of_scopes hscopes⟩
  | classDecl name superclass ds =>
    obtain ⟨-, hnew, -, hscopes⟩ := h.classDecl
    intro t ht
    cases List.mem_singleton.mp ht
    exact ⟨hnew, (Claims.bind hnew).of_scopes hscopes⟩
  | expression _ | value _ | block _ | ifElse _ _ _ | whileLoop _ _ | breakLoop _ | returnValue _ _ =>
    exact hquiet rfl trivial

/-- The statements declare no name in common. -/
def Stmt.Apart (s s' : Stmt) : Prop := ∀ t ∈ s.declared, ∀ t' ∈ s'.declared, t.lexeme ≠ t'.lexeme

instance : Std.Symm Stmt.Apart := ⟨fun _ _ h t ht t' ht' => (h t' ht' t ht).symm⟩

/-- The names that statements declare are new before them.  Within a scope they are different. -/
theorem Scope.Settled.declarations {ss : List Stmt} (h : Settled R ⟨⟨ctx, w, .stmts ss⟩, ls⟩) :
    (∀ s ∈ ss, ∀ t ∈ s.declared, Unclaimed t.lexeme w) ∧ (w.scopes ≠ [] → ss.Pairwise Stmt.Apart) := by
  induction ss generalizing w with
  | nil => exact ⟨nofun, fun _ => .nil⟩
  | cons s ss ih =>
    have hfirst := (h.part .firstStmt).declared
    obtain ⟨hnew, hapart⟩ := ih (h.part .otherStmts)
    have hgrown : Grown w.scopes (walkStmt ctx s w).scopes := by
      obtain ⟨is, hsits⟩ := h.part .firstStmt
      exact (growth_of_formed hsits.formed ctx w).1
    refine ⟨List.forall_mem_cons.mpr ⟨fun t ht => (hfirst t ht).1, fun s' hs' t ht => ?_⟩, fun hw => ?_⟩
    · exact (hnew s' hs' t ht).of_grown hgrown
    · obtain ⟨a, rest, hs⟩ := List.exists_cons_of_ne_nil hw
      refine .cons (fun s' hs' t ht t' ht' heq => ?_) (hapart ?_)
      · -- What the first statement has declared the others cannot declare.
        obtain ⟨a', hs', hcontains⟩ := (hfirst t ht).2.inside a rest hs
        have hno := hnew s' ‹_› t' ht' a' (by rw [hs']; rfl)
        rw [hcontains, decide_eq_true heq, Bool.true_or] at hno
        cases hno
      · rw [hs] at hgrown
        generalize (walkStmt ctx s w).scopes = as at hgrown
        cases hgrown
        exact List.cons_ne_nil _ _

end Statements

/-! ## Scopes

  The block or the function in which the name is declared is counted in the order of reading. -/

/-- The phrase opens the local scope. -/
inductive Phrase.Opens : Phrase → LocalScope → Prop where
  | block {ss} : Opens (.stmt (.block ss)) ⟨[], ss⟩
  | function {kind d} : Opens (.function kind d) ⟨d.params, d.body⟩

/-- Every local scope of a phrase is opened at a site that the walk comes to from there. -/
theorem opens_of_localScopes {program : List Stmt} {phrase : Phrase} {is : List Nat}
    (h : Formed phrase is) {ctx : Context} {w : Walk} {ls : List Layer}
    (hv : Visited program ⟨⟨ctx, w, phrase⟩, ls⟩) :
    ∀ scope ∈ phrase.localScopes, ∃ p, Visited program p ∧ p.phrase.Opens scope := by
  -- The walk comes to each part of the phrase, where the part is at home; blocks and functions open a scope.
  induction h generalizing ctx w ls with
  | literal | name _ | this _ | super _ | noExprs | unset _ | breakLoop | returned | noStmts
  | noMethods => exact nofun
  | grouping _ ih => exact ih (hv.part .grouping)
  | unary _ _ ih => exact ih (hv.part .operand)
  | binary _ _ _ iha ihb =>
    exact List.forall_mem_append.mpr ⟨iha (hv.part .left), ihb (hv.part .right)⟩
  | logical _ _ iha ihb =>
    exact List.forall_mem_append.mpr ⟨iha (hv.part .leftLogical), ihb (hv.part .rightLogical)⟩
  | ternary _ _ _ ihc iht ihe =>
    exact List.forall_mem_append.mpr ⟨ihc (hv.part .condition),
      List.forall_mem_append.mpr ⟨iht (hv.part .thenValue), ihe (hv.part .elseValue)⟩⟩
  | assign _ _ ih => exact ih (hv.part .assigned)
  | call _ _ ihc ihes =>
    exact List.forall_mem_append.mpr ⟨ihc (hv.part .callee), ihes (hv.part .arguments)⟩
  | get _ ih => exact ih (hv.part .object)
  | set _ _ iho ihe => exact List.forall_mem_append.mpr ⟨iho (hv.part .target), ihe (hv.part .field)⟩
  | lambda _ ih => exact ih (hv.part .lambda)
  | exprs _ _ ihe ihes =>
    exact List.forall_mem_append.mpr ⟨ihe (hv.part .firstExpr), ihes (hv.part .otherExprs)⟩
  | expression _ ih => exact ih (hv.part .expression)
  | value _ ih => exact ih (hv.part .value)
  | initialized _ _ ih => exact ih (hv.part .initializer)
  | block _ ih => exact List.forall_mem_cons.mpr ⟨⟨_, hv, .block⟩, ih (hv.part .block)⟩
  | ifOnly _ _ _ ihc iht =>
    exact List.forall_mem_append.mpr ⟨ihc (hv.part .decision),
      List.forall_mem_append.mpr ⟨iht (hv.part .thenBranch), nofun⟩⟩
  | ifElse _ _ _ _ _ ihc iht ihe =>
    exact List.forall_mem_append.mpr ⟨ihc (hv.part .decision),
      List.forall_mem_append.mpr ⟨iht (hv.part .thenBranch), ihe (hv.part .elseBranch)⟩⟩
  | whileLoop _ _ _ ihc ihb =>
    exact List.forall_mem_append.mpr ⟨ihc (hv.part .test), ihb (hv.part .round)⟩
  | funcDecl _ _ ih => exact ih (hv.part .declared)
  | classDecl _ _ ih | subclass _ _ _ ih => exact ih (hv.part .members)
  | returnedValue _ ih => exact ih (hv.part .returned)
  | stmts _ _ ihs ihss =>
    exact List.forall_mem_append.mpr ⟨ihs (hv.part .firstStmt), ihss (hv.part .otherStmts)⟩
  | function _ _ ih => exact List.forall_mem_cons.mpr ⟨⟨_, hv, .function⟩, ih (hv.part .body)⟩
  | methods _ _ ihd ihds =>
    exact List.forall_mem_append.mpr ⟨ihd (hv.part .firstMethod), ihds (hv.part .otherMethods)⟩

/-- Where a scope is opened its statements are settled, and the parameters are in it by then. -/
theorem Scope.Settled.opened {R : Resolution} {p : Site} {scope : LocalScope} (h : Settled R p)
    (ho : p.phrase.Opens scope) :
    ∃ ctx w ls a rest, Settled R ⟨⟨ctx, w, .stmts scope.body⟩, ls⟩ ∧ w.scopes = a :: rest ∧
      ∀ t ∈ scope.params, a.contains t.lexeme = true := by
  obtain ⟨⟨ctx, w, phrase⟩, ls⟩ := p
  cases ho with
  | block => exact ⟨_, _, _, _, _, h.part .block, rfl, nofun⟩
  | @function kind d =>
    obtain ⟨hplain, hclean⟩ := h.params
    obtain ⟨a, hscopes, hnames⟩ := Walk.binds_contain hplain (w := w.enter) rfl hclean
    exact ⟨_, _, _, a, _, h.part .body, hscopes, hnames⟩

/-- In a settled scope no function or class has the name of a variable or a parameter. -/
theorem Scope.Settled.spares {R : Resolution} {p : Site} {scope : LocalScope} {x : String}
    (h : Settled R p) (ho : p.phrase.Opens scope) (hx : scope.Declares x) :
    ∀ t ∈ titles scope.body, t.lexeme ≠ x := by
  obtain ⟨ctx, w, ls, a, rest, hbody, hscopes, hparams⟩ := h.opened ho
  obtain ⟨hnew, hapart⟩ := hbody.declarations
  intro t ht
  obtain ⟨s, hs, hts⟩ := List.mem_flatMap.mp ht
  -- A statement that declares a function or a class declares no variable.
  have hdeclared : s.declared = s.titles := by
    cases s with
    | varDecl _ _ => cases hts
    | _ => rfl
  -- A parameter or a variable: both are plain names.
  cases hx with
  | @param param hparam =>
    intro heq
    have hno := hnew s hs t (hdeclared ▸ hts) a (by rw [hscopes]; rfl)
    rw [heq, hparams param hparam] at hno
    cases hno
  | @varDecl name e hvariable =>
    have hne : s ≠ .varDecl name e := by
      rintro rfl
      cases hts
    have hboth := (hapart (by rw [hscopes]; exact List.cons_ne_nil _ _)).forall hs hvariable hne
    exact hboth t (hdeclared ▸ hts) name List.mem_cons_self

/-- The variables that statements declare have plain names. -/
theorem Formed.variable_plain {ss : List Stmt} {is : List Nat} (h : Formed (.stmts ss) is) {name : Token}
    {e : Option Expr} (hmem : .varDecl name e ∈ ss) : name.Plain := by
  induction ss generalizing is with
  | nil => cases hmem
  | cons s ss ih =>
    cases h with
    | stmts hs hss =>
      cases hmem with
      | head =>
        cases hs with
        | unset hn => exact hn
        | initialized hn _ => exact hn
      | tail _ hmem => exact ih hss hmem

/-- The variables and parameters of a settled scope have plain names. -/
theorem Scope.Settled.declares_plain {R : Resolution} {p : Site} {scope : LocalScope} {x : String}
    (h : Settled R p) (ho : p.phrase.Opens scope) (hx : scope.Declares x) : x ≠ "this" ∧ x ≠ "super" := by
  cases hx with
  | param hmem =>
    obtain ⟨⟨ctx, w, phrase⟩, ls⟩ := p
    cases ho with
    | block => cases hmem
    | function =>
      have hplain := h.params.1 _ hmem
      exact ⟨hplain.not_this, hplain.not_super⟩
  | varDecl hmem =>
    obtain ⟨ctx, w, ls, a, rest, ⟨is, hbody⟩, -⟩ := h.opened ho
    have hplain := hbody.formed.variable_plain hmem
    exact ⟨hplain.not_this, hplain.not_super⟩

/-! ## The renamed tree

  If the new name occurs nowhere, and the old one is declared in the one scope, marking every occurrence by the
  scopes around it gives a tree that is the same but for the name. -/

namespace Renaming

variable (r : Renaming)

/-- None of the tokens has the old name. -/
def Spares (ts : List Token) : Prop := ∀ t ∈ ts, t.lexeme ≠ r.old

/-- In the scope that declares the variable no function or class has the name; `k` is the number of the
    first of the scopes. -/
def Clear (k : Nat) (scopes : List LocalScope) : Prop :=
  ∀ i scope, scopes[i]? = some scope → k + i = r.scope → r.Spares (titles scope.body)

variable {r}

/-- What is clear in several scopes is so in the first ones. -/
theorem Clear.left {k : Nat} {as bs : List LocalScope} (h : r.Clear k (as ++ bs)) : r.Clear k as :=
  fun i scope hi => h i scope (List.getElem?_append_left (List.getElem?_eq_some_iff.mp hi).1 ▸ hi)

/-- And in the others, counted from behind the first ones. -/
theorem Clear.right {k : Nat} {as bs : List LocalScope} (h : r.Clear k (as ++ bs)) :
    r.Clear (k + as.length) bs := by
  intro i scope hi hk
  refine h (as.length + i) scope ?_ (by omega)
  rw [List.getElem?_append_right (Nat.le_add_right _ _), Nat.add_sub_cancel_left, hi]

/-- The scope that declares the variable spares its name. -/
theorem Clear.head {k : Nat} {scope : LocalScope} {rest : List LocalScope}
    (h : r.Clear k (scope :: rest)) (hk : (k == r.scope) = true) : r.Spares (titles scope.body) :=
  h 0 scope rfl (beq_iff_eq.mp hk)

/-- The scopes inside of a scope are counted from the next number on. -/
theorem Clear.tail {k : Nat} {scope : LocalScope} {rest : List LocalScope}
    (h : r.Clear k (scope :: rest)) : r.Clear (k + 1) rest :=
  fun i S hi hk => h (i + 1) S hi (by omega)

/-- A token that is not spelled like the variable is not touched, even where there is a mark. -/
theorem Tok.same {mark : Bool} {t : Token} (hfresh : t.lexeme ≠ r.new)
    (hold : mark = true → t.lexeme ≠ r.old) : r.Tok mark t t := by
  refine ⟨hfresh, ?_⟩
  rw [token, if_neg]
  rintro ⟨hmark, heq⟩
  exact hold hmark heq

end Renaming

/-- A local scope of a settled program is opened at a site that is settled. -/
theorem opened_of_settled {R : Resolution} {program : List Stmt} (h : Settled R (.program program))
    {k : Nat} {scope : LocalScope} (hscope : (stmtsLocalScopes program)[k]? = some scope) :
    ∃ p, Settled R p ∧ p.phrase.Opens scope := by
  have hformed : ∃ is, Formed (.stmts program) is := by
    obtain ⟨is, hsits⟩ := h
    exact ⟨is, hsits.formed⟩
  obtain ⟨is, hformed⟩ := hformed
  obtain ⟨p, hp, ho⟩ := opens_of_localScopes hformed .program scope (List.mem_of_getElem? hscope)
  exact ⟨p, settled_of_visited h hp, ho⟩

/-- **Where a variable is declared in a program about which nothing is reported no function or class has
    its name.** -/
theorem clear_of_declares {r : Renaming} {R : Resolution} {program : List Stmt}
    (h : Settled R (.program program)) {scope : LocalScope}
    (hscope : (stmtsLocalScopes program)[r.scope]? = some scope) (hx : scope.Declares r.old) :
    r.Clear 0 (stmtsLocalScopes program) := by
  rintro i scope' hi hk
  rw [Nat.zero_add] at hk
  -- Only the scope that declares the variable is asked about.
  rw [hk, hscope] at hi
  cases hi
  obtain ⟨p, hp, ho⟩ := opened_of_settled h hscope
  exact hp.spares ho hx

/-- Tokens other than a name stand for themselves. -/
def Likeness.without (x : String) (h : x ≠ "this") : Likeness where
  number i i' := i = i'
  token t t' := t' = t ∧ t.lexeme ≠ x
  single hi hj := by rw [hi, hj]
  kind h := congrArg Token.kind h.1
  lexeme h := congrArg Token.lexeme h.1
  named ht := ⟨by rw [ht.1], fun heq => h heq.symm⟩

/-- **What is renamed is related to what it was**, if the new name does not occur in it, and no function or
    class has the old name where the variable is declared. -/
theorem renamed_rename {r : Renaming} {hthis : r.new ≠ "this"} {p q : Phrase}
    (h : Copy (.without r.new hthis) p q) {R : Resolution} {ctx : Context} {w : Walk} {ls : List Layer}
    (hs : Settled R ⟨⟨ctx, w, p⟩, ls⟩) {k : Nat} {marks : List Bool} (hclear : r.Clear k p.localScopes)
    (htitles : marks.headD false = true → r.Spares p.titles) : Renamed r marks p (p.rename r k marks) := by
  have hquiet : ∀ {phrase : Phrase} {marks : List Bool}, phrase.titles = [] →
      marks.headD false = true → r.Spares phrase.titles := by
    intro phrase marks hp _ t ht
    rw [hp] at ht
    cases ht
  have href : ∀ {marks : List Bool} {o o' : Ref}, (Likeness.without r.new hthis).Refs o o' →
      r.Refs marks o (r.ref marks o) :=
    fun h => ⟨h.token.2, rfl⟩
  -- The numbers of the scopes are counted along the tree (`Clear.left`, `Clear.right`), and a block or
  -- function takes one for itself (`Clear.tail`).
  induction h generalizing ctx w ls k marks with
  | literal => exact .literal
  | grouping _ ih => exact .grouping (ih (hs.part .grouping) hclear (hquiet rfl))
  | unary _ _ ih => exact .unary (ih (hs.part .operand) hclear (hquiet rfl))
  | binary _ _ _ iha ihb =>
    exact .binary (iha (hs.part .left) hclear.left (hquiet rfl))
      (ihb (hs.part .right) hclear.right (hquiet rfl))
  | logical _ _ _ iha ihb =>
    exact .logical (iha (hs.part .leftLogical) hclear.left (hquiet rfl))
      (ihb (hs.part .rightLogical) hclear.right (hquiet rfl))
  | ternary _ _ _ ihc iht ihe =>
    exact .ternary (ihc (hs.part .condition) hclear.left (hquiet rfl))
      (iht (hs.part .thenValue) hclear.right.left (hquiet rfl))
      (ihe (hs.part .elseValue) hclear.right.right (hquiet rfl))
  | name hr => exact .name (href hr)
  | assign hr _ ih => exact .assign (href hr) (ih (hs.part .assigned) hclear (hquiet rfl))
  | call _ _ _ ihc ihes =>
    exact .call (ihc (hs.part .callee) hclear.left (hquiet rfl))
      (ihes (hs.part .arguments) hclear.right (hquiet rfl))
  | get _ _ ih => exact .get (ih (hs.part .object) hclear (hquiet rfl))
  | set _ _ _ iho ihe =>
    exact .set (iho (hs.part .target) hclear.left (hquiet rfl))
      (ihe (hs.part .field) hclear.right (hquiet rfl))
  | lambda _ ih => exact .lambda (ih (hs.part .lambda) hclear (hquiet rfl))
  | this _ => exact .this hs.this.2.1
  | super _ _ => exact .super hs.super.2.1
  | noExprs => exact .noExprs
  | exprs _ _ ihe ihes =>
    exact .exprs (ihe (hs.part .firstExpr) hclear.left (hquiet rfl))
      (ihes (hs.part .otherExprs) hclear.right (hquiet rfl))
  | expression _ ih => exact .expression (ih (hs.part .expression) hclear (hquiet rfl))
  | value _ ih => exact .value (ih (hs.part .value) hclear (hquiet rfl))
  | unset ht => exact .unset ⟨ht.2, rfl⟩
  | initialized ht _ ih => exact .initialized ⟨ht.2, rfl⟩ (ih (hs.part .initializer) hclear (hquiet rfl))
  | block _ ih => exact .block (ih (hs.part .block) hclear.tail hclear.head)
  | ifOnly _ _ ihc iht =>
    refine .ifOnly (ihc (hs.part .decision) hclear.left (hquiet rfl))
      (iht (hs.part .thenBranch) hclear.right.left fun hm t ht => ?_)
    exact htitles hm t (List.mem_append_left _ ht)
  | ifElse _ _ _ ihc iht ihe =>
    refine .ifElse (ihc (hs.part .decision) hclear.left (hquiet rfl))
      (iht (hs.part .thenBranch) hclear.right.left fun hm t ht => ?_)
      (ihe (hs.part .elseBranch) hclear.right.right fun hm t ht => ?_)
    · exact htitles hm t (List.mem_append_left _ ht)
    · exact htitles hm t (List.mem_append_right _ ht)
  | whileLoop _ _ ihc ihb =>
    exact .whileLoop (ihc (hs.part .test) hclear.left (hquiet rfl))
      (ihb (hs.part .round) hclear.right htitles)
  | breakLoop _ => exact .breakLoop
  | @funcDecl d d' hd ih =>
    -- The name of the function is not the new one, as nothing in the source is.
    have hfresh : (d.name.getD d.keyword).lexeme ≠ r.new := by
      have hn := hd.function_name
      generalize d.name = name, d'.name = name' at hn
      cases hn with
      | none => exact hd.function_keyword.2
      | some hn => exact hn.2
    exact .funcDecl (.same hfresh fun hm => htitles hm _ List.mem_cons_self)
      (ih (hs.part .declared) hclear (hquiet rfl))
  | @classDecl name _ ref _ ds _ ht hr _ ih =>
    refine .classDecl (.same ht.2 fun hm => htitles hm _ List.mem_cons_self) ?_
      (ih (hs.part .members) hclear (hquiet rfl))
    cases hr with
    | none => exact .none
    | some hr => exact .some (href hr)
  | returned _ => exact .returned
  | returnedValue _ _ ih => exact .returnedValue (ih (hs.part .returned) hclear (hquiet rfl))
  | noStmts => exact .noStmts
  | stmts _ _ ihs ihss =>
    refine .stmts (ihs (hs.part .firstStmt) hclear.left fun hm t ht => ?_)
      (ihss (hs.part .otherStmts) hclear.right fun hm t ht => ?_)
    · exact htitles hm t (List.mem_append_left _ ht)
    · exact htitles hm t (List.mem_append_right _ ht)
  | @function _ _ _ _ _ params params' _ _ _ _ hparams _ ih =>
    refine .function ?_ (ih (hs.part .body) hclear.tail hclear.head)
    clear ih hclear htitles hs
    induction hparams with
    | nil => exact .nil
    | cons ht _ ih => exact .cons ⟨ht.2, rfl⟩ ih
  | noMethods => exact .noMethods
  | methods _ _ ihd ihds =>
    exact .methods (ihd (hs.part .firstMethod) hclear.left (hquiet rfl))
      (ihds (hs.part .otherMethods) hclear.right (hquiet rfl))

end Lox
