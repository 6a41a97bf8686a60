import Lox.Proofs.Grammar.Trailing
import Lox.Proofs.Number.Printed
import Lox.Proofs.Scope.Formed
import Lox.Session

/-!
  The words in the tree of a program.

  What a tree holds of the text it was read from: its tokens are lexemes of their kinds, its names are names,
  its keywords and parentheses those that the grammar asks for, no operator is a constant, and the constants can
  be written as literals (`Worded`).  Which texts the strings may stand for is left open: it is the parameter
  `P`, which is `OneLine` where drawings are read back and nothing at all where constants are listed.

  * `Category.Worded` says it for what the categories of the grammar give: trees, names, what may be left out, lists.
  * `Words` is what is shown of a rule: if the tokens before a phrase are lexemes, and the texts of their
    strings have the property, its tree is worded, and the tokens behind it are as those before.
  * There is a lemma for each rule, in the order of the grammar; the tree of a counting loop is put together
    (`worded_loop`), and taken apart again where that is needed (`parts_of_worded_loop`).

  Whatever can be derived is worded with the texts that its tokens hold (`worded_of_derives`), and so are the
  statements of every source that is parsed without a report (`worded_of_parse`).
-/

namespace Lox

/-! ## Tokens and constants -/

namespace Token

/-- The token is a lexeme of its kind. -/
def Legal (t : Token) : Prop := IsLexeme t.kind t.lexeme.toList

/-- The token is a lexeme of the given kind. -/
structure Is (t : Token) (kind : TokenKind) : Prop where
  kind : t.kind = kind
  legal : t.Legal

/-- The token is a lexeme that stands for no constant. -/
structure NoConstant (t : Token) : Prop where
  legal : t.Legal
  constant : Grammar.constant? t.kind = none

/-- The token is a lexeme, and if it is a string it stands for one of the given texts. -/
structure Holds (P : String → Prop) (t : Token) : Prop where
  legal : t.Legal
  text : ∀ s, t.kind = .string s → P s

end Token

/-- All tokens are names. -/
def Names (ts : List Token) : Prop := ∀ t ∈ ts, t.Is .identifier

/-- The number has no sign. -/
def Number.Unsigned (x : Float) : Prop :=
  meaning x = .infinite false ∨ ∃ m q, meaning x = .finite false m q

/-- A number that is written as a lexeme has no sign. -/
theorem IsLexeme.unsigned {x : Float} {lexeme : List Char} (h : IsLexeme (.number x) lexeme) :
    Number.Unsigned x := by
  cases h with
  | whole _ => exact Number.ofNumeral_unsigned _ _
  | fraction _ _ => exact Number.ofNumeral_unsigned _ _

/-- The constant can be written: its number has no sign, and its string is one of the given texts. -/
def Literal.Writable (P : String → Prop) : Literal → Prop
  | .nil | .bool _ => True
  | .number x => Number.Unsigned x
  | .string s => P s

/-! ## Trees

  The tokens in a tree of an accepted source are of the kinds that the grammar asks for at their places. -/

/-- The tokens and constants of the phrase are as they can be read. -/
inductive Worded (P : String → Prop) : Phrase → Prop where
  | literal {l : Literal} : l.Writable P → Worded P (.expr (.literal l))
  | grouping {e} : Worded P (.expr e) → Worded P (.expr (.grouping e))
  | unary {op e} : op.NoConstant → Worded P (.expr e) → Worded P (.expr (.unary op e))
  | binary {l op r} : Worded P (.expr l) → op.NoConstant → Worded P (.expr r) →
    Worded P (.expr (.binary l op r))
  | logical {l op r} : Worded P (.expr l) → op.NoConstant → Worded P (.expr r) →
    Worded P (.expr (.logical l op r))
  | ternary {c t e} : Worded P (.expr c) → Worded P (.expr t) → Worded P (.expr e) →
    Worded P (.expr (.ternary c t e))
  | name {ref : Ref} : ref.name.Is .identifier → Worded P (.expr (.variable ref))
  | assign {ref : Ref} {e} : ref.name.Is .identifier → Worded P (.expr e) → Worded P (.expr (.assign ref e))
  | call {c paren es} : Worded P (.expr c) → paren.Is (.mark .rightParen) →
    (∀ e ∈ es, Worded P (.expr e)) → Worded P (.expr (.call c paren es))
  | get {o name} : Worded P (.expr o) → name.Is .identifier → Worded P (.expr (.get o name))
  | set {o name e} : Worded P (.expr o) → name.Is .identifier → Worded P (.expr e) →
    Worded P (.expr (.set o name e))
  | lambda {d} : Worded P (.function .function d) → Worded P (.expr (.lambda d))
  | this {ref : Ref} : ref.name.Is (.keyword .thisKw) → Worded P (.expr (.this ref))
  | super {ref : Ref} {method} : ref.name.Is (.keyword .superKw) → method.Is .identifier →
    Worded P (.expr (.super ref method))
  | expression {e} : Worded P (.expr e) → Worded P (.stmt (.expression e))
  | value {e} : Worded P (.expr e) → Worded P (.stmt (.value e))
  | varDecl {name initializer} : name.Is .identifier → (∀ e ∈ initializer, Worded P (.expr e)) →
    Worded P (.stmt (.varDecl name initializer))
  | block {ss} : (∀ s ∈ ss, Worded P (.stmt s)) → Worded P (.stmt (.block ss))
  | ifElse {c t e} : Worded P (.expr c) → Worded P (.stmt t) → (∀ s ∈ e, Worded P (.stmt s)) →
    Worded P (.stmt (.ifElse c t e))
  | whileLoop {c b} : Worded P (.expr c) → Worded P (.stmt b) → Worded P (.stmt (.whileLoop c b))
  | breakLoop {keyword} : keyword.Is (.keyword .breakKw) → Worded P (.stmt (.breakLoop keyword))
  | funcDecl {d} : Worded P (.function .function d) → Worded P (.stmt (.funcDecl d))
  | classDecl {name superclass ds} : name.Is .identifier →
    (∀ ref : Ref, ref ∈ superclass → ref.name.Is .identifier) →
    (∀ d ∈ ds, Worded P (.function .function d)) → Worded P (.stmt (.classDecl name superclass ds))
  | returnValue {keyword value} : keyword.Is (.keyword .returnKw) → (∀ e ∈ value, Worded P (.expr e)) →
    Worded P (.stmt (.returnValue keyword value))
  | function {name keyword params body} : (∀ t ∈ name, Token.Is t .identifier) →
    keyword.Is (.keyword .funcKw) → (∀ t ∈ params, Token.Is t .identifier) →
    (∀ s ∈ body, Worded P (.stmt s)) → Worded P (.function .function (.mk name keyword params body))

namespace Grammar

variable {P : String → Prop}

/-- What may be left out is worded where it is there. -/
def OptionalWorded {α : Type} (P : String → Prop) (phrase : α → Phrase) (a : Option α) : Prop :=
  ∀ v ∈ a, Worded P (phrase v)

/-- Each in the list is worded. -/
def EachWorded {α : Type} (P : String → Prop) (phrase : α → Phrase) (as : List α) : Prop :=
  ∀ a ∈ as, Worded P (phrase a)

/-- A superclass is given by a name. -/
def NamedSuperclass (ref : Option Ref) : Prop := ∀ r ∈ ref, r.name.Is .identifier

/-- The tree is worded. -/
def Category.Worded (P : String → Prop) : (c : Category) → c.Tree → Prop
  | .expression, e | .ternary, e | .operators _, e | .unary, e | .call, e | .primary, e =>
    Lox.Worded P (.expr e)
  | .optional, e => OptionalWorded P .expr e
  | .arguments, es | .argumentList, es => EachWorded P .expr es
  | .parameters, names | .parameterList, names => Names names
  | .routine _, d => Lox.Worded P (.function .function d)
  | .superclass, ref => NamedSuperclass ref
  | .methods, ds => EachWorded P (.function .function) ds
  | .initializer, s => OptionalWorded P .stmt s
  | .varDecl, s | .conditional _, s | .statement _, s | .declaration _, s => Lox.Worded P (.stmt s)
  | .block _, ss | .declarations _, ss => EachWorded P .stmt ss

/-- All tokens that are still to be read hold nothing but the given texts. -/
def Stand.Holds (P : String → Prop) (s : Stand) : Prop := ∀ t ∈ s.1, t.Holds P

namespace Stand.Holds

variable {t : Token} {ts : List Token} {i : Nat}

/-- The tokens behind the first. -/
theorem tail (h : Stand.Holds P (t :: ts, i)) (j : Nat) : Stand.Holds P (ts, j) :=
  fun t' ht' => h t' (List.mem_cons_of_mem t ht')

/-- The first token is a lexeme of its kind. -/
theorem is (h : Stand.Holds P (t :: ts, i)) {kind : TokenKind} (hk : t.kind = kind) : t.Is kind :=
  ⟨hk, (h t List.mem_cons_self).legal⟩

/-- The first token is no constant. -/
theorem noConstant (h : Stand.Holds P (t :: ts, i)) (ht : constant? t.kind = none) : t.NoConstant :=
  ⟨(h t List.mem_cons_self).legal, ht⟩

end Stand.Holds

/-- No operator is a constant. -/
theorem Tier.no_constant {tier : Tier} {kind : TokenKind} (h : kind ∈ tier.operators) :
    constant? kind = none := by
  have hall : ∀ kind ∈ tier.operators, constant? kind = none := by
    cases tier <;> simp [Tier.operators, constant?]
  exact hall kind h

/-- The tree of an operator of a tier is worded. -/
theorem worded_operator {tier : Tier} {op : Token} {l r : Expr} (hl : Lox.Worded P (.expr l))
    (ho : op.NoConstant) (hr : Lox.Worded P (.expr r)) : Lox.Worded P (.expr (tier.tree l op r)) := by
  cases tier with
  | disjunction | conjunction => exact .logical hl ho hr
  | equality | comparison | term | factor => exact .binary hl ho hr

/-- The tree of a counting loop is worded if its parts are. -/
theorem worded_loop {initializer : Option Stmt} {condition increment : Option Expr} {body : List Stmt}
    (hi : OptionalWorded P .stmt initializer) (hc : OptionalWorded P .expr condition)
    (hn : OptionalWorded P .expr increment) (hb : EachWorded P .stmt body) :
    Lox.Worded P (.stmt (loopTree condition increment body initializer)) := by
  have hcondition : Lox.Worded P (.expr (condition.getD (.literal (.bool true)))) := by
    cases condition with
    | none => exact .literal trivial
    | some c => exact hc c rfl
  -- The increment is a statement behind the body, if there is one.
  have hround : Lox.Worded P (.stmt (roundTree body increment)) := by
    cases increment with
    | none => exact .block hb
    | some e => exact .block (List.forall_mem_cons.mpr ⟨.block hb,
        List.forall_mem_singleton.mpr (.expression (hn e rfl))⟩)
  have hloop := Lox.Worded.whileLoop hcondition hround
  cases initializer with
  | none => exact hloop
  | some first =>
    exact .block (List.forall_mem_cons.mpr ⟨hi first rfl, List.forall_mem_singleton.mpr hloop⟩)

/-- The parts of a counting loop are worded if its tree is. -/
theorem parts_of_worded_loop {initializer : Option Stmt} {condition increment : Option Expr}
    {body : List Stmt} (h : Lox.Worded P (.stmt (loopTree condition increment body initializer))) :
    OptionalWorded P .stmt initializer ∧ OptionalWorded P .expr condition ∧
      OptionalWorded P .expr increment ∧ EachWorded P .stmt body := by
  -- The initializer is a statement before the loop, if there is one.
  have hloop : OptionalWorded P .stmt initializer ∧ Lox.Worded P
      (.stmt (.whileLoop (condition.getD (.literal (.bool true))) (roundTree body increment))) := by
    cases initializer with
    | none => exact ⟨nofun, h⟩
    | some first =>
      cases h with
      | block hss =>
        obtain ⟨hfirst, hrest⟩ := List.forall_mem_cons.mp hss
        exact ⟨fun s hs => Option.some.inj hs ▸ hfirst, hrest _ List.mem_cons_self⟩
  obtain ⟨hi, hwhile⟩ := hloop
  cases hwhile with
  | whileLoop hcondition hround =>
    refine ⟨hi, fun c hc => ?_, ?_⟩
    · rw [Option.mem_def.mp hc] at hcondition
      exact hcondition
    cases increment with
    | none =>
      cases hround with
      | block hbody => exact ⟨nofun, hbody⟩
    | some n =>
      cases hround with
      | block hss =>
        obtain ⟨hblock, hrest⟩ := List.forall_mem_cons.mp hss
        cases hblock with
        | block hbody =>
          cases hrest _ List.mem_cons_self with
          | expression hn => exact ⟨fun e he => Option.some.inj he ▸ hn, hbody⟩

/-! ### Rules

  A lemma for each rule with parts or names, the parts taken from the first to the last: what the tokens
  before a part hold, those behind it hold. -/

/-- Where the tokens before the phrase hold nothing but the given texts, its tree is worded with them, and
    so it is with the tokens behind it. -/
def Words (P : String → Prop) (c : Category) (s : Stand) (a : c.Tree) (u : Stand) : Prop :=
  s.Holds P → c.Worded P a ∧ u.Holds P

namespace Words

variable {s u v w : Stand} {ts us vs : List Token} {i j k : Nat} {inLoop : Bool}

/-! ### Expressions -/

/-- The target is a name. -/
theorem assignVariable {name equals : Token} {value : Expr} (hn : name.IsName)
    (hvalue : Words P .expression (ts, i + 1) value (us, j)) :
    Words P .expression (name :: equals :: ts, i) (.assign ⟨j, name⟩ value) (us, j + 1) := by
  intro hs
  obtain ⟨hv, hu⟩ := hvalue ((hs.tail 0).tail _)
  exact ⟨.assign (hs.is hn) hv, hu⟩

/-- The property is a name. -/
theorem assignProperty {object value : Expr} {dot name equals : Token}
    (hobject : Words P .call s object (dot :: name :: equals :: ts, i)) (hn : name.IsName)
    (hvalue : Words P .expression (ts, i) value u) : Words P .expression s (.set object name value) u := by
  intro hs
  obtain ⟨ho, ho'⟩ := hobject hs
  obtain ⟨hv, hu⟩ := hvalue (((ho'.tail 0).tail 0).tail _)
  exact ⟨.set ho ((ho'.tail 0).is hn) hv, hu⟩

/-- The three values are worded, and the marks between them leave nothing in the tree. -/
theorem choice {condition thenBranch elseBranch : Expr} {question colon : Token}
    (hcondition : Words P (.operators Tier.all) s condition (question :: ts, i))
    (hthen : Words P .ternary (ts, i) thenBranch (colon :: us, j))
    (helse : Words P .ternary (us, j) elseBranch u) :
    Words P .ternary s (.ternary condition thenBranch elseBranch) u := by
  intro hs
  obtain ⟨hc, hc'⟩ := hcondition hs
  obtain ⟨ht, ht'⟩ := hthen (hc'.tail _)
  obtain ⟨he, hu⟩ := helse (ht'.tail _)
  exact ⟨.ternary hc ht he, hu⟩

/-- An operator of a tier is no constant. -/
theorem operator {tier : Tier} {tighter : List Tier} {left right : Expr} {operator : Token}
    (hleft : Words P (.operators (tier :: tighter)) s left (operator :: ts, i))
    (ho : operator.kind ∈ tier.operators) (hright : Words P (.operators tighter) (ts, i) right u) :
    Words P (.operators (tier :: tighter)) s (tier.tree left operator right) u := by
  intro hs
  obtain ⟨hl, hl'⟩ := hleft hs
  obtain ⟨hr, hu⟩ := hright (hl'.tail _)
  exact ⟨worded_operator hl (hl'.noConstant (Tier.no_constant ho)) hr, hu⟩

/-- Nor is one of the two with one operand. -/
theorem negated {operator : Token} {right : Expr} (ho : operator.IsMark .bang ∨ operator.IsMark .minus)
    (hright : Words P .unary (ts, i) right u) :
    Words P .unary (operator :: ts, i) (.unary operator right) u := by
  intro hs
  obtain ⟨hr, hu⟩ := hright (hs.tail _)
  have hnone := hs.noConstant (by rcases ho with ho | ho <;> exact congrArg constant? ho)
  exact ⟨.unary hnone hr, hu⟩

theorem lambda {d : FunctionDecl} (hd : Words P (.routine .lambda) s d u) :
    Words P .unary s (.lambda d) u :=
  fun hs => ⟨.lambda (hd hs).1, (hd hs).2⟩

/-! ### Calls and atoms -/

/-- The closing parenthesis is kept in the tree. -/
theorem application {callee : Expr} {given : List Expr} {left right : Token}
    (hcallee : Words P .call s callee (left :: ts, i))
    (hgiven : Words P .arguments (ts, i) given (right :: us, j)) (hr : right.IsMark .rightParen) :
    Words P .call s (.call callee right given) (us, j) := by
  intro hs
  obtain ⟨hc, hc'⟩ := hcallee hs
  obtain ⟨hg, hu⟩ := hgiven (hc'.tail _)
  exact ⟨.call hc (hu.is hr) hg, hu.tail _⟩

theorem property {object : Expr} {dot name : Token}
    (hobject : Words P .call s object (dot :: name :: ts, i)) (hn : name.IsName) :
    Words P .call s (.get object name) (ts, i) := by
  intro hs
  obtain ⟨ho, ho'⟩ := hobject hs
  exact ⟨.get ho ((ho'.tail 0).is hn), (ho'.tail 0).tail _⟩

/-- A number is read from a lexeme, and no lexeme has a sign. -/
theorem number {t : Token} {x : Float} (hk : t.kind = .number x) :
    Words P .primary (t :: ts, i) (.literal (.number x)) (ts, i) := by
  intro hs
  have hlegal := (hs.is hk).legal
  rw [Token.Legal, hk] at hlegal
  exact ⟨.literal hlegal.unsigned, hs.tail _⟩

/-- The text of the string is one of those that the tokens hold. -/
theorem string {t : Token} {x : String} (hk : t.kind = .string x) :
    Words P .primary (t :: ts, i) (.literal (.string x)) (ts, i) :=
  fun hs => ⟨.literal ((hs _ List.mem_cons_self).text _ hk), hs.tail _⟩

/-- A variable is a name. -/
theorem name {name : Token} (hn : name.IsName) :
    Words P .primary (name :: ts, i) (.variable ⟨i, name⟩) (ts, i + 1) :=
  fun hs => ⟨.name (hs.is hn), hs.tail _⟩

/-- The keyword is kept in the tree. -/
theorem this {keyword : Token} (hk : keyword.IsKeyword .thisKw) :
    Words P .primary (keyword :: ts, i) (.this ⟨i, keyword⟩) (ts, i + 1) :=
  fun hs => ⟨.this (hs.is hk), hs.tail _⟩

/-- The keyword is kept in the tree, and the method is a name. -/
theorem super {keyword dot method : Token} (hk : keyword.IsKeyword .superKw) (hn : method.IsName) :
    Words P .primary (keyword :: dot :: method :: ts, i) (.super ⟨i, keyword⟩ method) (ts, i + 1) :=
  fun hs => ⟨.super (hs.is hk) (((hs.tail 0).tail 0).is hn), ((hs.tail 0).tail 0).tail _⟩

theorem grouping {left right : Token} {inner : Expr}
    (hinner : Words P .expression (ts, i) inner (right :: us, j)) :
    Words P .primary (left :: ts, i) (.grouping inner) (us, j) := by
  intro hs
  obtain ⟨he, hu⟩ := hinner (hs.tail _)
  exact ⟨.grouping he, hu.tail _⟩

/-! ### Lists of expressions and of names -/

theorem given {e : Expr} (he : Words P .expression s e u) : Words P .optional s (some e) u :=
  fun hs => ⟨fun _ hv => Option.some.inj hv ▸ (he hs).1, (he hs).2⟩

theorem lastArgument {e : Expr} (he : Words P .expression s e u) : Words P .argumentList s [e] u :=
  fun hs => ⟨List.forall_mem_singleton.mpr (he hs).1, (he hs).2⟩

/-- The first argument and the others. -/
theorem argument {first : Expr} {comma : Token} {rest : List Expr}
    (hfirst : Words P .expression s first (comma :: ts, i)) (hrest : Words P .argumentList (ts, i) rest u) :
    Words P .argumentList s (first :: rest) u := by
  intro hs
  obtain ⟨hf, hf'⟩ := hfirst hs
  obtain ⟨hr, hu⟩ := hrest (hf'.tail _)
  exact ⟨List.forall_mem_cons.mpr ⟨hf, hr⟩, hu⟩

/-- A parameter is a name. -/
theorem lastParameter {name : Token} (hn : name.IsName) :
    Words P .parameterList (name :: ts, i) [name] (ts, i) :=
  fun hs => ⟨List.forall_mem_singleton.mpr (hs.is hn), hs.tail _⟩

/-- The first parameter and the others. -/
theorem parameter {name comma : Token} {rest : List Token} (hn : name.IsName)
    (hrest : Words P .parameterList (ts, i) rest u) :
    Words P .parameterList (name :: comma :: ts, i) (name :: rest) u := by
  intro hs
  obtain ⟨hr, hu⟩ := hrest ((hs.tail 0).tail _)
  exact ⟨List.forall_mem_cons.mpr ⟨hs.is hn, hr⟩, hu⟩

/-! ### Functions and classes -/

/-- The name, the keyword and the parameters are kept, and the body is worded. -/
theorem routine {kind : Routine} {keyword name left right : Token} {params : List Token} {body : List Stmt}
    (hk : keyword.IsKeyword .funcKw) (hn : name.IsName)
    (hparams : Words P .parameters (ts, i) params (right :: us, j))
    (hbody : Words P (.block false) (us, j) body u) :
    Words P (.routine kind) (keyword :: name :: left :: ts, i) (.mk (some name) keyword params body) u := by
  intro hs
  obtain ⟨hp, hp'⟩ := hparams (((hs.tail 0).tail 0).tail _)
  obtain ⟨hb, hu⟩ := hbody (hp'.tail _)
  exact ⟨.function (fun t ht => Option.some.inj ht ▸ (hs.tail 0).is hn) (hs.is hk) hp hb, hu⟩

/-- As `routine`, without a name. -/
theorem anonymous {keyword left right : Token} {params : List Token} {body : List Stmt}
    (hk : keyword.IsKeyword .funcKw) (hparams : Words P .parameters (ts, i) params (right :: us, j))
    (hbody : Words P (.block false) (us, j) body u) :
    Words P (.routine .lambda) (keyword :: left :: ts, i) (.mk none keyword params body) u := by
  intro hs
  obtain ⟨hp, hp'⟩ := hparams ((hs.tail 0).tail _)
  obtain ⟨hb, hu⟩ := hbody (hp'.tail _)
  exact ⟨.function nofun (hs.is hk) hp hb, hu⟩

/-- The superclass is a name. -/
theorem extending {less name : Token} (hn : name.IsName) :
    Words P .superclass (less :: name :: ts, i) (some ⟨i, name⟩) (ts, i + 1) := by
  intro hs
  refine ⟨?_, (hs.tail 0).tail _⟩
  rintro _ ⟨⟩
  exact (hs.tail 0).is hn

theorem method {first : FunctionDecl} {rest : List FunctionDecl}
    (hfirst : Words P (.routine .method) s first u) (hrest : Words P .methods u rest v) :
    Words P .methods s (first :: rest) v := by
  intro hs
  obtain ⟨hf, hf'⟩ := hfirst hs
  obtain ⟨hr, hu⟩ := hrest hf'
  exact ⟨List.forall_mem_cons.mpr ⟨hf, hr⟩, hu⟩

/-- The names are kept, and the methods are worded. -/
theorem classDecl {keyword name left right : Token} {superclass : Option Ref} {methods : List FunctionDecl}
    (hn : name.IsName) (hsuper : Words P .superclass (ts, i) superclass (left :: us, j))
    (hmethods : Words P .methods (us, j) methods (right :: vs, k)) :
    Words P (.declaration inLoop) (keyword :: name :: ts, i) (.classDecl name superclass methods)
      (vs, k) := by
  intro hs
  obtain ⟨href, hl⟩ := hsuper ((hs.tail 0).tail _)
  obtain ⟨hm, hu⟩ := hmethods (hl.tail _)
  exact ⟨.classDecl ((hs.tail 0).is hn) href hm, hu.tail _⟩

/-! ### Declarations -/

theorem function {d : FunctionDecl} (hd : Words P (.routine .function) s d u) :
    Words P (.declaration inLoop) s (.funcDecl d) u :=
  fun hs => ⟨.funcDecl (hd hs).1, (hd hs).2⟩

theorem unset {keyword name stop : Token} (hn : name.IsName) :
    Words P .varDecl (keyword :: name :: stop :: ts, i) (.varDecl name none) (ts, i) :=
  fun hs => ⟨.varDecl ((hs.tail 0).is hn) nofun, ((hs.tail 0).tail 0).tail _⟩

/-- The name is kept, and the value is worded. -/
theorem set {keyword name equals stop : Token} {value : Expr} (hn : name.IsName)
    (hvalue : Words P .expression (ts, i) value (stop :: us, j)) :
    Words P .varDecl (keyword :: name :: equals :: ts, i) (.varDecl name (some value)) (us, j) := by
  intro hs
  obtain ⟨hv, hu⟩ := hvalue (((hs.tail 0).tail 0).tail _)
  exact ⟨.varDecl ((hs.tail 0).is hn) fun e he => Option.some.inj he ▸ hv, hu.tail _⟩

/-- The first statement and the others. -/
theorem declarations {first : Stmt} {rest : List Stmt} (hfirst : Words P (.declaration inLoop) s first u)
    (hrest : Words P (.declarations inLoop) u rest v) :
    Words P (.declarations inLoop) s (first :: rest) v := by
  intro hs
  obtain ⟨hf, hf'⟩ := hfirst hs
  obtain ⟨hr, hu⟩ := hrest hf'
  exact ⟨List.forall_mem_cons.mpr ⟨hf, hr⟩, hu⟩

theorem block {left right : Token} {body : List Stmt}
    (hbody : Words P (.declarations inLoop) (ts, i) body (right :: us, j)) :
    Words P (.block inLoop) (left :: ts, i) body (us, j) := by
  intro hs
  obtain ⟨hb, hu⟩ := hbody (hs.tail _)
  exact ⟨hb, hu.tail _⟩

/-! ### Statements -/

theorem variableInitializer {d : Stmt} (hd : Words P .varDecl s d u) :
    Words P .initializer s (some d) u :=
  fun hs => ⟨fun _ hd' => Option.some.inj hd' ▸ (hd hs).1, (hd hs).2⟩

theorem expressionInitializer {e : Expr} {stop : Token} (he : Words P .expression s e (stop :: ts, i)) :
    Words P .initializer s (some (.expression e)) (ts, i) := by
  intro hs
  obtain ⟨he, hu⟩ := he hs
  exact ⟨fun d hd => Option.some.inj hd ▸ .expression he, hu.tail _⟩

/-- The tree of the loop is made of its clauses (`worded_loop`). -/
theorem forLoop {keyword stop : Token} {initializer : Option Stmt} {condition increment : Option Expr}
    {body : List Stmt} (hinitializer : Words P .initializer (ts, i) initializer u)
    (hcondition : Words P .optional u condition (stop :: us, j))
    (hincrement : Words P .optional (us, j) increment v) (hbody : Words P (.block true) v body w) :
    Words P (.statement inLoop) (keyword :: ts, i) (loopTree condition increment body initializer) w := by
  intro hs
  obtain ⟨hi, hi'⟩ := hinitializer (hs.tail _)
  obtain ⟨hc, hc'⟩ := hcondition hi'
  obtain ⟨hn, hn'⟩ := hincrement (hc'.tail _)
  obtain ⟨hb, hu⟩ := hbody hn'
  exact ⟨worded_loop hi hc hn hb, hu⟩

/-- The body is a block. -/
theorem whileLoop {keyword : Token} {condition : Expr} {body : List Stmt}
    (hcondition : Words P .expression (ts, i) condition u) (hbody : Words P (.block true) u body v) :
    Words P (.statement inLoop) (keyword :: ts, i) (.whileLoop condition (.block body)) v := by
  intro hs
  obtain ⟨hc, hc'⟩ := hcondition (hs.tail _)
  obtain ⟨hb, hu⟩ := hbody hc'
  exact ⟨.whileLoop hc (.block hb), hu⟩

theorem ifOnly {keyword : Token} {condition : Expr} {thenBranch : List Stmt}
    (hcondition : Words P .expression (ts, i) condition u)
    (hthen : Words P (.block inLoop) u thenBranch v) :
    Words P (.conditional inLoop) (keyword :: ts, i) (.ifElse condition (.block thenBranch) none) v := by
  intro hs
  obtain ⟨hc, hc'⟩ := hcondition (hs.tail _)
  obtain ⟨ht, hu⟩ := hthen hc'
  exact ⟨.ifElse hc (.block ht) nofun, hu⟩

/-- Both branches are blocks. -/
theorem ifElse {keyword otherwise : Token} {condition : Expr} {thenBranch elseBranch : List Stmt}
    (hcondition : Words P .expression (ts, i) condition u)
    (hthen : Words P (.block inLoop) u thenBranch (otherwise :: us, j))
    (helse : Words P (.block inLoop) (us, j) elseBranch v) :
    Words P (.conditional inLoop) (keyword :: ts, i)
      (.ifElse condition (.block thenBranch) (some (.block elseBranch))) v := by
  intro hs
  obtain ⟨hc, hc'⟩ := hcondition (hs.tail _)
  obtain ⟨ht, ht'⟩ := hthen hc'
  obtain ⟨he, hu⟩ := helse (ht'.tail _)
  exact ⟨.ifElse hc (.block ht) fun s hs => Option.some.inj hs ▸ .block he, hu⟩

/-- The second branch is a statement by itself. -/
theorem elseIf {keyword otherwise : Token} {condition : Expr} {thenBranch : List Stmt} {elseBranch : Stmt}
    (hcondition : Words P .expression (ts, i) condition u)
    (hthen : Words P (.block inLoop) u thenBranch (otherwise :: us, j))
    (helse : Words P (.conditional inLoop) (us, j) elseBranch v) :
    Words P (.conditional inLoop) (keyword :: ts, i)
      (.ifElse condition (.block thenBranch) (some elseBranch)) v := by
  intro hs
  obtain ⟨hc, hc'⟩ := hcondition (hs.tail _)
  obtain ⟨ht, ht'⟩ := hthen hc'
  obtain ⟨he, hu⟩ := helse (ht'.tail _)
  exact ⟨.ifElse hc (.block ht) fun s hs => Option.some.inj hs ▸ he, hu⟩

/-- The keyword is kept, and the value is worded. -/
theorem returnValue {keyword stop : Token} {value : Option Expr} (hk : keyword.IsKeyword .returnKw)
    (hvalue : Words P .optional (ts, i) value (stop :: us, j)) :
    Words P (.statement inLoop) (keyword :: ts, i) (.returnValue keyword value) (us, j) := by
  intro hs
  obtain ⟨hv, hu⟩ := hvalue (hs.tail _)
  exact ⟨.returnValue (hs.is hk) hv, hu.tail _⟩

/-- The keyword is kept. -/
theorem breakLoop {keyword stop : Token} (hk : keyword.IsKeyword .breakKw) :
    Words P (.statement true) (keyword :: stop :: ts, i) (.breakLoop keyword) (ts, i) :=
  fun hs => ⟨.breakLoop (hs.is hk), (hs.tail 0).tail _⟩

theorem blockStatement {body : List Stmt} (hbody : Words P (.block inLoop) s body u) :
    Words P (.statement inLoop) s (.block body) u :=
  fun hs => ⟨.block (hbody hs).1, (hbody hs).2⟩

theorem expressionStatement {e : Expr} {stop : Token} (he : Words P .expression s e (stop :: ts, i)) :
    Words P (.statement inLoop) s (.expression e) (ts, i) :=
  fun hs => ⟨.expression (he hs).1, (he hs).2.tail _⟩

end Words

/-- **What is derived is worded**, with the texts that the tokens hold. -/
theorem worded_of_derives {c : Category} {s u : Stand} {a : c.Tree} (h : Derives c s a u) :
    Words P c s a u := by
  induction h with
  | assignVariable hn _ _ ih => exact Words.assignVariable hn ih
  | assignProperty _ _ hn _ _ iho ihv => exact Words.assignProperty iho hn ihv
  | choice _ _ _ _ _ ihc iht ihe => exact Words.choice ihc iht ihe
  | operator _ ho _ ihl ihr => exact Words.operator ihl ho ihr
  | negated ho _ ih => exact Words.negated ho ih
  | lambda _ ih => exact Words.lambda ih
  | application _ _ _ hr ihc ihg => exact Words.application ihc ihg hr
  | property _ _ hn ih => exact Words.property ih hn
  | number hk => exact Words.number hk
  | string hk => exact Words.string hk
  | name hn => exact Words.name hn
  | this hk => exact Words.this hk
  | super hk _ hn => exact Words.super hk hn
  | grouping _ _ _ ih => exact Words.grouping ih
  | given _ ih => exact Words.given ih
  | lastArgument _ ih => exact Words.lastArgument ih
  | argument _ _ _ ihf ihr => exact Words.argument ihf ihr
  | lastParameter hn => exact Words.lastParameter hn
  | parameter hn _ _ ih => exact Words.parameter hn ih
  | routine _ hk hn _ _ _ _ ihp ihb => exact Words.routine hk hn ihp ihb
  | anonymous hk _ _ _ _ ihp ihb => exact Words.anonymous hk ihp ihb
  | extending _ hn => exact Words.extending hn
  | method _ _ ihf ihr => exact Words.method ihf ihr
  | classDecl _ hn _ _ _ _ ihs ihm => exact Words.classDecl hn ihs ihm
  | function _ ih => exact Words.function ih
  | unset _ hn _ => exact Words.unset hn
  | set _ hn _ _ _ ih => exact Words.set hn ih
  | variableInitializer _ ih => exact Words.variableInitializer ih
  | expressionInitializer _ _ ih => exact Words.expressionInitializer ih
  | forLoop _ _ _ _ _ _ ihi ihc ihn ihb => exact Words.forLoop ihi ihc ihn ihb
  | whileLoop _ _ _ ihc ihb => exact Words.whileLoop ihc ihb
  | ifOnly _ _ _ ihc ihb => exact Words.ifOnly ihc ihb
  | ifElse _ _ _ _ _ ihc ihb ihe => exact Words.ifElse ihc ihb ihe
  | elseIf _ _ _ _ _ ihc ihb ihe => exact Words.elseIf ihc ihb ihe
  | returnValue hk _ _ ih => exact Words.returnValue hk ih
  | breakLoop hk _ => exact Words.breakLoop hk
  | blockStatement _ ih => exact Words.blockStatement ih
  | expressionStatement _ _ ih => exact Words.expressionStatement ih
  | block _ _ _ ih => exact Words.block ih
  | declarations _ _ ihf ihr => exact Words.declarations ihf ihr
  -- A phrase of another category, with the same tree.
  | ternary _ ih | operators _ ih | unary _ ih | operand _ ih | call _ ih | primary _ ih
  | someArguments _ ih | someParameters _ ih | varDecl _ ih | statement _ _ ih | conditional _ ih => exact ih
  -- Nothing is read that holds a text or a name.
  | trueConstant _ | falseConstant _ | nilConstant _ => exact fun hs => ⟨.literal trivial, hs.tail _⟩
  | noInitializer _ => exact fun hs => ⟨nofun, hs.tail _⟩
  | omitted | noSuperclass => exact fun hs => ⟨nofun, hs⟩
  | noArguments | noParameters | noMethods | noDeclarations => exact fun hs => ⟨List.forall_mem_nil _, hs⟩

end Grammar

/-! ## Sources -/

/-- **The statements of a source that is parsed without a report are worded**, with the texts of its
    strings. -/
theorem worded_of_parse {P : String → Prop} {source : String} {interactive : Bool} {firstId : Nat}
    (h : (Grammar.parse (tokensOf (items source)) interactive firstId).diagnostics = [])
    (hP : ∀ t ∈ tokensOf (items source), ∀ s, t.kind = .string s → P s) :
    ∀ s ∈ (Grammar.parse (tokensOf (items source)) interactive firstId).program, Worded P (.stmt s) := by
  obtain ⟨u, -, -, before, last, v, hprogram, hbefore, hlast⟩ := Grammar.program_of_parse h
  -- The tokens before the end of the file are lexemes.
  have hstart : Grammar.Stand.Holds P ((tokensOf (items source)).takeWhile (!·.isEof), firstId) := by
    intro t ht
    have hmem := (List.takeWhile_prefix _).subset ht
    have hend := List.mem_takeWhile_imp ht
    exact ⟨lexemesOf_legal t (List.mem_filter.mpr ⟨hmem, hend⟩), hP t hmem⟩
  obtain ⟨hworded, hv⟩ := Grammar.worded_of_derives hbefore hstart
  rw [hprogram]
  refine List.forall_mem_append.mpr ⟨hworded, ?_⟩
  cases hlast with
  | nothing => exact List.forall_mem_nil _
  | value _ _ _ he => exact List.forall_mem_singleton.mpr (.value (Grammar.worded_of_derives he hv).1)

end Lox
