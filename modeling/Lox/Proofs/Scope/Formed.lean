import Lox.Proofs.Grammar.Derivation
import Lox.Proofs.Scope.Spelling
import Lox.Scope

/-!
  Phrases of a program, and what is true of all that have been read.

  A phrase is what a walk over a program comes to at one step.  `Formed` says of a phrase that its names are
  names, its operators operators, its branches and loop bodies no declarations, and lists the numbers of the
  occurrences of names in it.

  `WellFormed` says for each category of the grammar what its trees have to be: formed, with numbers between
  that before it and that behind it and none of them twice (`Numbered`); plain names for parameters; a plain
  name for a superclass.  `Forms` is what is shown of a rule: if the tokens before a phrase are spelled as
  their kinds ask for, its tree is well formed, and the tokens that are left are spelled as well.

  There is one lemma for every rule of the grammar, in the order of the grammar, from the tiers of operators
  up to statements; each puts the facts about its parts side by side (`Numbered.append`).  A `for` loop is a
  tree of loops and blocks in which the increment comes behind the body: the numbers are the same ones in
  another order (`formed_loop`).  The induction over derivations (`formed_of_derives`) only names the lemmas.
-/

namespace Lox

/-- What a walk over a program comes to at one step. -/
inductive Phrase where
  | expr (e : Expr)
  | exprs (es : List Expr)
  | stmt (s : Stmt)
  | stmts (ss : List Stmt)
  | function (kind : BodyKind) (d : FunctionDecl)
  | methods (ds : List FunctionDecl)

/-- The operators between two operands that are both evaluated. -/
def binaryOperators : List TokenKind :=
  [Grammar.Tier.equality, .comparison, .term, .factor].flatMap Grammar.Tier.operators

/-- The statement gives no name to the scope it stands in. -/
def Stmt.IsQuiet : Stmt → Prop
  | .varDecl _ _ | .funcDecl _ | .classDecl _ _ _ => False
  | _ => True

/-- The phrase could have been read, and the numbers of its occurrences of names are these. -/
inductive Formed : Phrase → List Nat → Prop where
  | literal {l} : Formed (.expr (.literal l)) []
  | grouping {e is} : Formed (.expr e) is → Formed (.expr (.grouping e)) is
  | unary {op e is} : op.kind = .mark .bang ∨ op.kind = .mark .minus → Formed (.expr e) is →
    Formed (.expr (.unary op e)) is
  | binary {l op r is js} : op.kind ∈ binaryOperators → Formed (.expr l) is → Formed (.expr r) js →
    Formed (.expr (.binary l op r)) (is ++ js)
  | logical {l op r is js} : Formed (.expr l) is → Formed (.expr r) js →
    Formed (.expr (.logical l op r)) (is ++ js)
  | ternary {c t e is js ks} : Formed (.expr c) is → Formed (.expr t) js → Formed (.expr e) ks →
    Formed (.expr (.ternary c t e)) (is ++ (js ++ ks))
  | name {ref : Ref} : ref.name.Plain → Formed (.expr (.variable ref)) [ref.id]
  | assign {ref : Ref} {e is} : ref.name.Plain → Formed (.expr e) is →
    Formed (.expr (.assign ref e)) (is ++ [ref.id])
  | call {c paren es is js} : Formed (.expr c) is → Formed (.exprs es) js →
    Formed (.expr (.call c paren es)) (is ++ js)
  | get {o name is} : Formed (.expr o) is → Formed (.expr (.get o name)) is
  | set {o name e is js} : Formed (.expr o) is → Formed (.expr e) js →
    Formed (.expr (.set o name e)) (is ++ js)
  | lambda {d is} : Formed (.function .function d) is → Formed (.expr (.lambda d)) is
  | this {ref : Ref} : ref.name.lexeme = "this" → Formed (.expr (.this ref)) [ref.id]
  | super {ref : Ref} {method} : ref.name.lexeme = "super" →
    Formed (.expr (.super ref method)) [ref.id]
  | noExprs : Formed (.exprs []) []
  | exprs {e es is js} : Formed (.expr e) is → Formed (.exprs es) js →
    Formed (.exprs (e :: es)) (is ++ js)
  | expression {e is} : Formed (.expr e) is → Formed (.stmt (.expression e)) is
  | value {e is} : Formed (.expr e) is → Formed (.stmt (.value e)) is
  | unset {name : Token} : name.Plain → Formed (.stmt (.varDecl name none)) []
  | initialized {name : Token} {e is} : name.Plain → Formed (.expr e) is →
    Formed (.stmt (.varDecl name (some e))) is
  | block {ss is} : Formed (.stmts ss) is → Formed (.stmt (.block ss)) is
  | ifOnly {c t is js} : t.IsQuiet → Formed (.expr c) is → Formed (.stmt t) js →
    Formed (.stmt (.ifElse c t none)) (is ++ js)
  | ifElse {c t e is js ks} : t.IsQuiet → e.IsQuiet → Formed (.expr c) is → Formed (.stmt t) js →
    Formed (.stmt e) ks → Formed (.stmt (.ifElse c t (some e))) (is ++ (js ++ ks))
  | whileLoop {c b is js} : b.IsQuiet → Formed (.expr c) is → Formed (.stmt b) js →
    Formed (.stmt (.whileLoop c b)) (is ++ js)
  | breakLoop {keyword} : Formed (.stmt (.breakLoop keyword)) []
  | funcDecl {name : Token} {keyword params body is} : name.Plain →
    Formed (.function .function (.mk (some name) keyword params body)) is →
    Formed (.stmt (.funcDecl (.mk (some name) keyword params body))) is
  | classDecl {name : Token} {ds is} : name.Plain → Formed (.methods ds) is →
    Formed (.stmt (.classDecl name none ds)) is
  | subclass {name : Token} {ref : Ref} {ds is} : name.Plain → ref.name.Plain →
    Formed (.methods ds) is → Formed (.stmt (.classDecl name (some ref) ds)) (ref.id :: is)
  | returned {keyword} : Formed (.stmt (.returnValue keyword none)) []
  | returnedValue {keyword e is} : Formed (.expr e) is →
    Formed (.stmt (.returnValue keyword (some e))) is
  | noStmts : Formed (.stmts []) []
  | stmts {s ss is js} : Formed (.stmt s) is → Formed (.stmts ss) js →
    Formed (.stmts (s :: ss)) (is ++ js)
  | function {kind name keyword params body is} : (∀ param ∈ params, Token.Plain param) →
    Formed (.stmts body) is → Formed (.function kind (.mk name keyword params body)) is
  | noMethods : Formed (.methods []) []
  | methods {d ds is js} : Formed (.function (Scope.methodKind d) d) is → Formed (.methods ds) js →
    Formed (.methods (d :: ds)) (is ++ js)

/-- The kind of a function says nothing about its form. -/
theorem Formed.of_kind {kind kind' : BodyKind} {d : FunctionDecl} {is : List Nat}
    (h : Formed (.function kind d) is) : Formed (.function kind' d) is := by
  cases h with
  | function hp hb => exact .function hp hb

/-! ## Numbers of occurrences -/

/-- The numbers are different ones from `i` up to `j`. -/
structure Numbered (is : List Nat) (i j : Nat) : Prop where
  le : i ≤ j
  nodup : is.Nodup
  bounds : ∀ id ∈ is, i ≤ id ∧ id < j

namespace Numbered

variable {is js : List Nat} {i j k : Nat}

/-- No numbers lie anywhere. -/
theorem nil (h : i ≤ j) : Numbered [] i j := ⟨h, List.nodup_nil, nofun⟩

/-- The next number, and it alone, is used up. -/
theorem single (i : Nat) : Numbered [i] i (i + 1) :=
  ⟨Nat.le_succ i, by simp, fun id h => by
    rw [List.mem_singleton] at h
    omega⟩

/-- What is numbered up to `j` and from there on is numbered throughout: the two lists have no number in
    common. -/
theorem append (h : Numbered is i j) (h' : Numbered js j k) : Numbered (is ++ js) i k := by
  refine ⟨Nat.le_trans h.le h'.le, ?_, fun id hid => ?_⟩
  · refine List.nodup_append.mpr ⟨h.nodup, h'.nodup, ?_⟩
    rintro a ha _ hb rfl
    have h₁ := (h.bounds a ha).2
    have h₂ := (h'.bounds a hb).1
    omega
  · have hle := h.le
    have hle' := h'.le
    rcases List.mem_append.mp hid with hid | hid
    · have := h.bounds id hid
      omega
    · have := h'.bounds id hid
      omega

/-- The order in which the numbers are listed does not matter. -/
theorem perm (h : Numbered is i j) (hp : is.Perm js) : Numbered js i j :=
  ⟨h.le, hp.nodup_iff.mp h.nodup, fun id hid => h.bounds id (hp.mem_iff.mpr hid)⟩

/-- Numbers in a range lie in every larger one. -/
theorem mono (h : Numbered is i j) {i' j' : Nat} (hi : i' ≤ i) (hj : j ≤ j') :
    Numbered is i' j' := by
  refine ⟨?_, h.nodup, fun id hid => ?_⟩
  · have := h.le
    omega
  · have := h.bounds id hid
    omega

end Numbered

/-! ## Derivations

  One lemma for each rule of the grammar: the numbers of a tree are those between where its reading starts and
  where it ends. -/

namespace Grammar

/-- The phrase is formed, and its numbers lie between. -/
def FormedBetween (phrase : Phrase) (i j : Nat) : Prop :=
  ∃ is, Formed phrase is ∧ Numbered is i j

/-- What may be left out is formed where it is there. -/
def OptionalBetween {α : Type} (phrase : α → Phrase) (a : Option α) (i j : Nat) : Prop :=
  i ≤ j ∧ ∀ v ∈ a, FormedBetween (phrase v) i j

/-- The names are plain. -/
def PlainNames (names : List Token) : Prop := ∀ t ∈ names, t.Plain

/-- The name of a superclass is plain, if there is one. -/
def SuperclassBetween (ref : Option Ref) (i j : Nat) : Prop :=
  i ≤ j ∧ ∀ r ∈ ref, r.name.Plain ∧ Numbered [r.id] i j

/-- A function is formed, and has a plain name unless it is a lambda. -/
def RoutineBetween (kind : Routine) (d : FunctionDecl) (i j : Nat) : Prop :=
  (kind ≠ .lambda → ∃ name keyword params body, d = .mk (some name) keyword params body ∧
    name.Plain) ∧ FormedBetween (.function .function d) i j

/-- What is true of the trees that have been derived. -/
def WellFormed : (c : Category) → c.Tree → Nat → Nat → Prop
  | .expression, e, i, j | .ternary, e, i, j | .operators _, e, i, j | .unary, e, i, j
  | .call, e, i, j | .primary, e, i, j => FormedBetween (.expr e) i j
  | .optional, e, i, j => OptionalBetween .expr e i j
  | .arguments, es, i, j | .argumentList, es, i, j => FormedBetween (.exprs es) i j
  | .parameters, names, i, j | .parameterList, names, i, j => i ≤ j ∧ PlainNames names
  | .routine kind, d, i, j => RoutineBetween kind d i j
  | .superclass, ref, i, j => SuperclassBetween ref i j
  | .methods, ds, i, j => FormedBetween (.methods ds) i j
  | .initializer, d, i, j => OptionalBetween .stmt d i j
  | .varDecl, d, i, j | .declaration _, d, i, j => FormedBetween (.stmt d) i j
  | .conditional _, d, i, j => Stmt.IsQuiet d ∧ FormedBetween (.stmt d) i j
  | .statement _, d, i, j => FormedBetween (.stmt d) i j
  | .block _, ds, i, j | .declarations _, ds, i, j => FormedBetween (.stmts ds) i j

/-- All tokens that are still to be read are spelled as their kinds ask for. -/
def Stand.Spelled (s : Stand) : Prop := ∀ t ∈ s.1, t.Spelled

/-- The tokens behind the first are spelled if all are. -/
theorem Stand.Spelled.tail {t : Token} {ts : List Token} {i : Nat} (h : Stand.Spelled (t :: ts, i))
    (j : Nat) : Stand.Spelled (ts, j) :=
  fun t' ht' => h t' (List.mem_cons_of_mem t ht')

/-- An identifier is not written like a keyword. -/
theorem Stand.Spelled.plain {t : Token} {ts : List Token} {i : Nat}
    (h : Stand.Spelled (t :: ts, i)) (hn : t.IsName) : t.Plain :=
  (h t List.mem_cons_self).plain hn

/-- A keyword is written as it is. -/
theorem Stand.Spelled.keyword {t : Token} {ts : List Token} {i : Nat} {k : Keyword}
    (h : Stand.Spelled (t :: ts, i)) (hk : t.IsKeyword k) : t.lexeme = k.text :=
  (h t List.mem_cons_self).keyword k hk

/-- An operator of a tier makes a formed tree. -/
theorem formed_operator {tier : Tier} {op : Token} {l r : Expr} {is js : List Nat}
    (ho : op.kind ∈ tier.operators) (hl : Formed (.expr l) is) (hr : Formed (.expr r) js) :
    Formed (.expr (tier.tree l op r)) (is ++ js) := by
  have hbinary : tier ∈ [Tier.equality, .comparison, .term, .factor] →
      op.kind ∈ binaryOperators := fun ht => List.mem_flatMap.mpr ⟨tier, ht, ho⟩
  -- The two logical tiers have a tree of their own; the others share one.
  cases tier with
  | disjunction => exact .logical hl hr
  | conjunction => exact .logical hl hr
  | equality => exact .binary (hbinary (by decide)) hl hr
  | comparison => exact .binary (hbinary (by decide)) hl hr
  | term => exact .binary (hbinary (by decide)) hl hr
  | factor => exact .binary (hbinary (by decide)) hl hr

/-- The numbers of an expression that may be left out. -/
theorem numbers_of_optional {e : Option Expr} {i j : Nat} (h : OptionalBetween .expr e i j) :
    ∃ is, Numbered is i j ∧ ∀ default, Formed (.expr (.literal default)) [] →
      Formed (.expr (e.getD (.literal default))) is ∧ ∀ v ∈ e, Formed (.expr v) is := by
  obtain ⟨hle, he⟩ := h
  cases e with
  | none => exact ⟨[], .nil hle, fun _ hd => ⟨hd, nofun⟩⟩
  | some e =>
    obtain ⟨is, hf, hn⟩ := he e rfl
    exact ⟨is, hn, fun _ _ => ⟨hf, fun v hv => Option.some.inj hv ▸ hf⟩⟩

/-- A counting loop is formed; its increment stands behind its body, but was read before. -/
theorem formed_loop {initializer : Option Stmt} {condition increment : Option Expr}
    {body : List Stmt} {i j k l m : Nat} (hi : OptionalBetween .stmt initializer i j)
    (hc : OptionalBetween .expr condition j k) (hn : OptionalBetween .expr increment k l)
    (hb : FormedBetween (.stmts body) l m) :
    FormedBetween (.stmt (loopTree condition increment body initializer)) i m := by
  obtain ⟨is, hbody, hbounds⟩ := hb
  obtain ⟨js, hjs, hincrement⟩ := numbers_of_optional hn
  obtain ⟨ks, hks, hcondition⟩ := numbers_of_optional hc
  -- One round: the increment was read before the body and stands behind it.
  have hround : FormedBetween (.stmt (roundTree body increment)) k m := by
    cases increment with
    | none => exact ⟨is, .block hbody, hbounds.mono hjs.le (Nat.le_refl m)⟩
    | some e =>
      have he := (hincrement .nil .literal).2 e rfl
      refine ⟨is ++ (js ++ []), .block (.stmts (.block hbody) (.stmts (.expression he) .noStmts)), ?_⟩
      rw [List.append_nil]
      exact (hjs.append hbounds).perm List.perm_append_comm
  obtain ⟨ls, hround, hls⟩ := hround
  have hquiet : Stmt.IsQuiet (roundTree body increment) := by
    cases increment <;> trivial
  -- A condition that is left out is a constant, which has no number.
  have hloop := Formed.whileLoop hquiet (hcondition (.bool true) .literal).1 hround
  have hnumbers := hks.append hls
  cases initializer with
  | none => exact ⟨_, hloop, hnumbers.mono hi.1 (Nat.le_refl m)⟩
  | some first =>
    obtain ⟨ms, hfirst, hms⟩ := hi.2 first rfl
    refine ⟨ms ++ ((ks ++ ls) ++ []), .block (.stmts hfirst (.stmts hloop .noStmts)), ?_⟩
    rw [List.append_nil]
    exact hms.append hnumbers

/-! ## Rules

  A lemma for each rule with parts or names.  The parts are taken from the first to the last: where the
  tokens before a part are spelled, those behind it are, and its numbers follow on those of the parts
  before it. -/

/-- Where the tokens before the phrase are spelled as their kinds ask for, its tree is well formed, and the
    tokens behind it are spelled too. -/
def Forms (c : Category) (s : Stand) (a : c.Tree) (u : Stand) : Prop :=
  s.Spelled → WellFormed c a s.2 u.2 ∧ u.Spelled

namespace Forms

variable {s u v w : Stand} {ts us vs : List Token} {i j k : Nat} {inLoop : Bool}

/-! ### Expressions -/

/-- The occurrence is numbered behind the value, though its name stands before it. -/
theorem assignVariable {name equals : Token} {value : Expr} (hn : name.IsName)
    (hvalue : Forms .expression (ts, i + 1) value (us, j)) :
    Forms .expression (name :: equals :: ts, i) (.assign ⟨j, name⟩ value) (us, j + 1) := by
  intro hs
  obtain ⟨⟨is, hv, hb⟩, hu⟩ := hvalue ((hs.tail 0).tail _)
  refine ⟨⟨_, .assign (hs.plain hn) hv, ?_⟩, hu⟩
  exact (hb.append (.single _)).mono (Nat.le_succ _) (Nat.le_refl _)

/-- The object is read before the value, and the name of the property is no occurrence. -/
theorem assignProperty {object value : Expr} {dot name equals : Token}
    (hobject : Forms .call s object (dot :: name :: equals :: ts, i))
    (hvalue : Forms .expression (ts, i) value u) : Forms .expression s (.set object name value) u := by
  intro hs
  obtain ⟨⟨is, ho, hb⟩, ho'⟩ := hobject hs
  obtain ⟨⟨js, hv, hb'⟩, hu⟩ := hvalue (((ho'.tail 0).tail 0).tail _)
  exact ⟨⟨_, .set ho hv, hb.append hb'⟩, hu⟩

/-- Three values, one behind the other. -/
theorem choice {condition thenBranch elseBranch : Expr} {question colon : Token}
    (hcondition : Forms (.operators Tier.all) s condition (question :: ts, i))
    (hthen : Forms .ternary (ts, i) thenBranch (colon :: us, j))
    (helse : Forms .ternary (us, j) elseBranch u) :
    Forms .ternary s (.ternary condition thenBranch elseBranch) u := by
  intro hs
  obtain ⟨⟨is, hc, hb⟩, hc'⟩ := hcondition hs
  obtain ⟨⟨js, ht, hb'⟩, ht'⟩ := hthen (hc'.tail _)
  obtain ⟨⟨ks, he, hb''⟩, hu⟩ := helse (ht'.tail _)
  exact ⟨⟨_, .ternary hc ht he, hb.append (hb'.append hb'')⟩, hu⟩

/-- An operator of the tier between two operands is one that the tree may have there. -/
theorem operator {tier : Tier} {tighter : List Tier} {left right : Expr} {operator : Token}
    (hleft : Forms (.operators (tier :: tighter)) s left (operator :: ts, i))
    (ho : operator.kind ∈ tier.operators) (hright : Forms (.operators tighter) (ts, i) right u) :
    Forms (.operators (tier :: tighter)) s (tier.tree left operator right) u := by
  intro hs
  obtain ⟨⟨is, hl, hb⟩, hl'⟩ := hleft hs
  obtain ⟨⟨js, hr, hb'⟩, hu⟩ := hright (hl'.tail _)
  exact ⟨⟨_, formed_operator ho hl hr, hb.append hb'⟩, hu⟩

/-- The operator is one of the two that have one operand. -/
theorem negated {operator : Token} {right : Expr} (ho : operator.IsMark .bang ∨ operator.IsMark .minus)
    (hright : Forms .unary (ts, i) right u) :
    Forms .unary (operator :: ts, i) (.unary operator right) u := by
  intro hs
  obtain ⟨⟨is, hr, hb⟩, hu⟩ := hright (hs.tail _)
  exact ⟨⟨_, .unary ho hr, hb⟩, hu⟩

theorem lambda {d : FunctionDecl} (hd : Forms (.routine .lambda) s d u) : Forms .unary s (.lambda d) u := by
  intro hs
  obtain ⟨⟨-, is, hd, hb⟩, hu⟩ := hd hs
  exact ⟨⟨_, .lambda hd, hb⟩, hu⟩

/-! ### Calls and atoms -/

/-- The arguments come behind what is called. -/
theorem application {callee : Expr} {given : List Expr} {left right : Token}
    (hcallee : Forms .call s callee (left :: ts, i))
    (hgiven : Forms .arguments (ts, i) given (right :: us, j)) :
    Forms .call s (.call callee right given) (us, j) := by
  intro hs
  obtain ⟨⟨is, hc, hb⟩, hc'⟩ := hcallee hs
  obtain ⟨⟨js, hg, hb'⟩, hu⟩ := hgiven (hc'.tail _)
  exact ⟨⟨_, .call hc hg, hb.append hb'⟩, hu.tail _⟩

theorem property {object : Expr} {dot name : Token}
    (hobject : Forms .call s object (dot :: name :: ts, i)) : Forms .call s (.get object name) (ts, i) := by
  intro hs
  obtain ⟨⟨is, ho, hb⟩, ho'⟩ := hobject hs
  exact ⟨⟨_, .get ho, hb⟩, (ho'.tail 0).tail _⟩

/-- A constant has no occurrence of a name. -/
theorem constant {t : Token} {l : Literal} : Forms .primary (t :: ts, i) (.literal l) (ts, i) :=
  fun hs => ⟨⟨_, .literal, .nil (Nat.le_refl _)⟩, hs.tail _⟩

/-- A variable takes the next number, under an identifier. -/
theorem name {name : Token} (hn : name.IsName) :
    Forms .primary (name :: ts, i) (.variable ⟨i, name⟩) (ts, i + 1) :=
  fun hs => ⟨⟨_, .name (hs.plain hn), .single _⟩, hs.tail _⟩

/-- A `this` takes the next number, and is written `this`. -/
theorem this {keyword : Token} (hk : keyword.IsKeyword .thisKw) :
    Forms .primary (keyword :: ts, i) (.this ⟨i, keyword⟩) (ts, i + 1) :=
  fun hs => ⟨⟨_, .this (hs.keyword hk), .single _⟩, hs.tail _⟩

/-- A `super` takes the next number, and the name of the method none. -/
theorem super {keyword dot method : Token} (hk : keyword.IsKeyword .superKw) :
    Forms .primary (keyword :: dot :: method :: ts, i) (.super ⟨i, keyword⟩ method) (ts, i + 1) :=
  fun hs => ⟨⟨_, .super (hs.keyword hk), .single _⟩, ((hs.tail 0).tail 0).tail _⟩

theorem grouping {left right : Token} {inner : Expr}
    (hinner : Forms .expression (ts, i) inner (right :: us, j)) :
    Forms .primary (left :: ts, i) (.grouping inner) (us, j) := by
  intro hs
  obtain ⟨⟨is, he, hb⟩, hu⟩ := hinner (hs.tail _)
  exact ⟨⟨_, .grouping he, hb⟩, hu.tail _⟩

/-! ### Lists of expressions and of names -/

theorem given {e : Expr} (he : Forms .expression s e u) : Forms .optional s (some e) u := by
  intro hs
  obtain ⟨⟨is, he, hb⟩, hu⟩ := he hs
  exact ⟨⟨hb.le, fun v hv => Option.some.inj hv ▸ ⟨is, he, hb⟩⟩, hu⟩

theorem lastArgument {e : Expr} (he : Forms .expression s e u) : Forms .argumentList s [e] u := by
  intro hs
  obtain ⟨⟨is, he, hb⟩, hu⟩ := he hs
  exact ⟨⟨_, .exprs he .noExprs, by rwa [List.append_nil]⟩, hu⟩

/-- The numbers of the first argument come before those of the others. -/
theorem argument {first : Expr} {comma : Token} {rest : List Expr}
    (hfirst : Forms .expression s first (comma :: ts, i)) (hrest : Forms .argumentList (ts, i) rest u) :
    Forms .argumentList s (first :: rest) u := by
  intro hs
  obtain ⟨⟨is, hf, hb⟩, hf'⟩ := hfirst hs
  obtain ⟨⟨js, hr, hb'⟩, hu⟩ := hrest (hf'.tail _)
  exact ⟨⟨_, .exprs hf hr, hb.append hb'⟩, hu⟩

/-- A parameter is a name, and no occurrence. -/
theorem lastParameter {name : Token} (hn : name.IsName) :
    Forms .parameterList (name :: ts, i) [name] (ts, i) := by
  intro hs
  refine ⟨⟨Nat.le_refl _, fun t ht => ?_⟩, hs.tail _⟩
  rw [List.mem_singleton] at ht
  exact ht ▸ hs.plain hn

theorem parameter {name comma : Token} {rest : List Token} (hn : name.IsName)
    (hrest : Forms .parameterList (ts, i) rest u) :
    Forms .parameterList (name :: comma :: ts, i) (name :: rest) u := by
  intro hs
  obtain ⟨⟨hle, hrest⟩, hu⟩ := hrest ((hs.tail 0).tail _)
  exact ⟨⟨hle, List.forall_mem_cons.mpr ⟨hs.plain hn, hrest⟩⟩, hu⟩

/-! ### Functions and classes -/

/-- A function with a name: its parameters are names, and its numbers those of the body. -/
theorem routine {kind : Routine} {keyword name left right : Token} {params : List Token} {body : List Stmt}
    (hn : name.IsName) (hparams : Forms .parameters (ts, i) params (right :: us, j))
    (hbody : Forms (.block false) (us, j) body u) :
    Forms (.routine kind) (keyword :: name :: left :: ts, i) (.mk (some name) keyword params body) u := by
  intro hs
  obtain ⟨⟨hle, hplain⟩, hp⟩ := hparams (((hs.tail 0).tail 0).tail _)
  obtain ⟨⟨is, hb, hnumbers⟩, hu⟩ := hbody (hp.tail _)
  refine ⟨⟨fun _ => ⟨_, _, _, _, rfl, (hs.tail 0).plain hn⟩, is, .function hplain hb, ?_⟩, hu⟩
  exact hnumbers.mono hle (Nat.le_refl _)

/-- A function without a name. -/
theorem anonymous {keyword left right : Token} {params : List Token} {body : List Stmt}
    (hparams : Forms .parameters (ts, i) params (right :: us, j))
    (hbody : Forms (.block false) (us, j) body u) :
    Forms (.routine .lambda) (keyword :: left :: ts, i) (.mk none keyword params body) u := by
  intro hs
  obtain ⟨⟨hle, hplain⟩, hp⟩ := hparams ((hs.tail 0).tail _)
  obtain ⟨⟨is, hb, hnumbers⟩, hu⟩ := hbody (hp.tail _)
  refine ⟨⟨fun h => absurd rfl h, is, .function hplain hb, ?_⟩, hu⟩
  exact hnumbers.mono hle (Nat.le_refl _)

/-- The name of a superclass is an occurrence. -/
theorem extending {less name : Token} (hn : name.IsName) :
    Forms .superclass (less :: name :: ts, i) (some ⟨i, name⟩) (ts, i + 1) := by
  intro hs
  refine ⟨⟨Nat.le_succ _, ?_⟩, (hs.tail 0).tail _⟩
  rintro _ ⟨⟩
  exact ⟨(hs.tail 0).plain hn, .single _⟩

/-- The numbers of the first method come before those of the others. -/
theorem method {first : FunctionDecl} {rest : List FunctionDecl}
    (hfirst : Forms (.routine .method) s first u) (hrest : Forms .methods u rest v) :
    Forms .methods s (first :: rest) v := by
  intro hs
  obtain ⟨⟨-, is, hf, hb⟩, hf'⟩ := hfirst hs
  obtain ⟨⟨js, hr, hb'⟩, hu⟩ := hrest hf'
  exact ⟨⟨_, .methods hf.of_kind hr, hb.append hb'⟩, hu⟩

/-- The number of the superclass, if there is one, comes before those of the methods. -/
theorem classDecl {keyword name left right : Token} {superclass : Option Ref} {methods : List FunctionDecl}
    (hn : name.IsName) (hsuper : Forms .superclass (ts, i) superclass (left :: us, j))
    (hmethods : Forms .methods (us, j) methods (right :: vs, k)) :
    Forms (.declaration inLoop) (keyword :: name :: ts, i) (.classDecl name superclass methods) (vs, k) := by
  intro hs
  obtain ⟨⟨hle, href⟩, hl⟩ := hsuper ((hs.tail 0).tail _)
  obtain ⟨⟨is, hm, hb⟩, hu⟩ := hmethods (hl.tail _)
  refine ⟨?_, hu.tail _⟩
  have hname := (hs.tail 0).plain hn
  -- Without a superclass no number is used up before the methods, with one it is the first.
  cases superclass with
  | none => exact ⟨is, .classDecl hname hm, hb.mono hle (Nat.le_refl _)⟩
  | some ref =>
    obtain ⟨hplain, hid⟩ := href ref rfl
    exact ⟨_, .subclass hname hplain hm, hid.append hb⟩

/-! ### Declarations -/

theorem function {d : FunctionDecl} (hd : Forms (.routine .function) s d u) :
    Forms (.declaration inLoop) s (.funcDecl d) u := by
  intro hs
  obtain ⟨⟨hname, is, hd, hb⟩, hu⟩ := hd hs
  obtain ⟨name, keyword, params, body, rfl, hplain⟩ := hname nofun
  exact ⟨⟨is, .funcDecl hplain hd, hb⟩, hu⟩

/-- A variable without a value has no numbers. -/
theorem unset {keyword name stop : Token} (hn : name.IsName) :
    Forms .varDecl (keyword :: name :: stop :: ts, i) (.varDecl name none) (ts, i) :=
  fun hs => ⟨⟨_, .unset ((hs.tail 0).plain hn), .nil (Nat.le_refl _)⟩, ((hs.tail 0).tail 0).tail _⟩

/-- The numbers of a variable declaration are those of the value. -/
theorem set {keyword name equals stop : Token} {value : Expr} (hn : name.IsName)
    (hvalue : Forms .expression (ts, i) value (stop :: us, j)) :
    Forms .varDecl (keyword :: name :: equals :: ts, i) (.varDecl name (some value)) (us, j) := by
  intro hs
  obtain ⟨⟨is, hv, hb⟩, hu⟩ := hvalue (((hs.tail 0).tail 0).tail _)
  exact ⟨⟨_, .initialized ((hs.tail 0).plain hn) hv, hb⟩, hu.tail _⟩

/-- The numbers of the first statement come before those of the others. -/
theorem declarations {first : Stmt} {rest : List Stmt} (hfirst : Forms (.declaration inLoop) s first u)
    (hrest : Forms (.declarations inLoop) u rest v) : Forms (.declarations inLoop) s (first :: rest) v := by
  intro hs
  obtain ⟨⟨is, hd, hb⟩, hd'⟩ := hfirst hs
  obtain ⟨⟨js, hds, hb'⟩, hu⟩ := hrest hd'
  exact ⟨⟨_, .stmts hd hds, hb.append hb'⟩, hu⟩

theorem block {left right : Token} {body : List Stmt}
    (hbody : Forms (.declarations inLoop) (ts, i) body (right :: us, j)) :
    Forms (.block inLoop) (left :: ts, i) body (us, j) := by
  intro hs
  obtain ⟨hb, hu⟩ := hbody (hs.tail _)
  exact ⟨hb, hu.tail _⟩

/-! ### Loops and conditionals -/

theorem variableInitializer {d : Stmt} (hd : Forms .varDecl s d u) : Forms .initializer s (some d) u := by
  intro hs
  obtain ⟨⟨is, hd, hb⟩, hu⟩ := hd hs
  exact ⟨⟨hb.le, fun d hd' => Option.some.inj hd' ▸ ⟨is, hd, hb⟩⟩, hu⟩

theorem expressionInitializer {e : Expr} {stop : Token} (he : Forms .expression s e (stop :: ts, i)) :
    Forms .initializer s (some (.expression e)) (ts, i) := by
  intro hs
  obtain ⟨⟨is, he, hb⟩, hu⟩ := he hs
  refine ⟨⟨hb.le, ?_⟩, hu.tail _⟩
  rintro _ ⟨⟩
  exact ⟨is, .expression he, hb⟩

/-- The one rule whose tree has its parts in another order than the text. -/
theorem forLoop {keyword stop : Token} {initializer : Option Stmt} {condition increment : Option Expr}
    {body : List Stmt} (hinitializer : Forms .initializer (ts, i) initializer u)
    (hcondition : Forms .optional u condition (stop :: us, j))
    (hincrement : Forms .optional (us, j) increment v) (hbody : Forms (.block true) v body w) :
    Forms (.statement inLoop) (keyword :: ts, i) (loopTree condition increment body initializer) w := by
  intro hs
  obtain ⟨hi, hi'⟩ := hinitializer (hs.tail _)
  obtain ⟨hc, hc'⟩ := hcondition hi'
  obtain ⟨hn, hn'⟩ := hincrement (hc'.tail _)
  obtain ⟨hb, hu⟩ := hbody hn'
  exact ⟨formed_loop hi hc hn hb, hu⟩

/-- The body is a block, which declares nothing outside of itself. -/
theorem whileLoop {keyword : Token} {condition : Expr} {body : List Stmt}
    (hcondition : Forms .expression (ts, i) condition u) (hbody : Forms (.block true) u body v) :
    Forms (.statement inLoop) (keyword :: ts, i) (.whileLoop condition (.block body)) v := by
  intro hs
  obtain ⟨⟨is, hc, hn⟩, hc'⟩ := hcondition (hs.tail _)
  obtain ⟨⟨js, hb, hn'⟩, hu⟩ := hbody hc'
  exact ⟨⟨_, .whileLoop trivial hc (.block hb), hn.append hn'⟩, hu⟩

theorem ifOnly {keyword : Token} {condition : Expr} {thenBranch : List Stmt}
    (hcondition : Forms .expression (ts, i) condition u) (hthen : Forms (.block inLoop) u thenBranch v) :
    Forms (.conditional inLoop) (keyword :: ts, i) (.ifElse condition (.block thenBranch) none) v := by
  intro hs
  obtain ⟨⟨is, hc, hn⟩, hc'⟩ := hcondition (hs.tail _)
  obtain ⟨⟨js, hb, hn'⟩, hu⟩ := hthen hc'
  exact ⟨⟨trivial, _, .ifOnly trivial hc (.block hb), hn.append hn'⟩, hu⟩

/-- Both branches are blocks, which declare nothing outside of themselves. -/
theorem ifElse {keyword otherwise : Token} {condition : Expr} {thenBranch elseBranch : List Stmt}
    (hcondition : Forms .expression (ts, i) condition u)
    (hthen : Forms (.block inLoop) u thenBranch (otherwise :: us, j))
    (helse : Forms (.block inLoop) (us, j) elseBranch v) :
    Forms (.conditional inLoop) (keyword :: ts, i)
      (.ifElse condition (.block thenBranch) (some (.block elseBranch))) v := by
  intro hs
  obtain ⟨⟨is, hc, hn⟩, hc'⟩ := hcondition (hs.tail _)
  obtain ⟨⟨js, hb, hn'⟩, hb'⟩ := hthen hc'
  obtain ⟨⟨ks, he, hn''⟩, hu⟩ := helse (hb'.tail _)
  exact ⟨⟨trivial, _, .ifElse trivial trivial hc (.block hb) (.block he), hn.append (hn'.append hn'')⟩, hu⟩

/-- The branch is a conditional, which declares nothing. -/
theorem elseIf {keyword otherwise : Token} {condition : Expr} {thenBranch : List Stmt} {elseBranch : Stmt}
    (hcondition : Forms .expression (ts, i) condition u)
    (hthen : Forms (.block inLoop) u thenBranch (otherwise :: us, j))
    (helse : Forms (.conditional inLoop) (us, j) elseBranch v) :
    Forms (.conditional inLoop) (keyword :: ts, i)
      (.ifElse condition (.block thenBranch) (some elseBranch)) v := by
  intro hs
  obtain ⟨⟨is, hc, hn⟩, hc'⟩ := hcondition (hs.tail _)
  obtain ⟨⟨js, hb, hn'⟩, hb'⟩ := hthen hc'
  obtain ⟨⟨hquiet, ks, he, hn''⟩, hu⟩ := helse (hb'.tail _)
  exact ⟨⟨trivial, _, .ifElse trivial hquiet hc (.block hb) he, hn.append (hn'.append hn'')⟩, hu⟩

/-! ### Other statements -/

theorem conditional {d : Stmt} (hd : Forms (.conditional inLoop) s d u) :
    Forms (.statement inLoop) s d u := by
  intro hs
  obtain ⟨⟨-, hd⟩, hu⟩ := hd hs
  exact ⟨hd, hu⟩

/-- A value that is left out has no numbers. -/
theorem returnValue {keyword stop : Token} {value : Option Expr}
    (hvalue : Forms .optional (ts, i) value (stop :: us, j)) :
    Forms (.statement inLoop) (keyword :: ts, i) (.returnValue keyword value) (us, j) := by
  intro hs
  obtain ⟨⟨hle, hv⟩, hu⟩ := hvalue (hs.tail _)
  refine ⟨?_, hu.tail _⟩
  cases value with
  | none => exact ⟨_, .returned, .nil hle⟩
  | some e =>
    obtain ⟨is, he, hb⟩ := hv e rfl
    exact ⟨is, .returnedValue he, hb⟩

theorem breakLoop {keyword stop : Token} :
    Forms (.statement true) (keyword :: stop :: ts, i) (.breakLoop keyword) (ts, i) :=
  fun hs => ⟨⟨_, .breakLoop, .nil (Nat.le_refl _)⟩, (hs.tail 0).tail _⟩

theorem blockStatement {body : List Stmt} (hbody : Forms (.block inLoop) s body u) :
    Forms (.statement inLoop) s (.block body) u := by
  intro hs
  obtain ⟨⟨is, hb, hn⟩, hu⟩ := hbody hs
  exact ⟨⟨is, .block hb, hn⟩, hu⟩

theorem expressionStatement {e : Expr} {stop : Token} (he : Forms .expression s e (stop :: ts, i)) :
    Forms (.statement inLoop) s (.expression e) (ts, i) := by
  intro hs
  obtain ⟨⟨is, he, hb⟩, hu⟩ := he hs
  exact ⟨⟨is, .expression he, hb⟩, hu.tail _⟩

end Forms

/-! ## Derivations -/

/-- **What has been derived is formed, and no two of its occurrences have the same number.** -/
theorem formed_of_derives {c : Category} {s u : Stand} {a : c.Tree} (h : Derives c s a u) :
    Forms c s a u := by
  induction h with
  | assignVariable hn _ _ ih => exact Forms.assignVariable hn ih
  | assignProperty _ _ _ _ _ iho ihv => exact Forms.assignProperty iho ihv
  | choice _ _ _ _ _ ihc iht ihe => exact Forms.choice ihc iht ihe
  | operator _ ho _ ihl ihr => exact Forms.operator ihl ho ihr
  | negated ho _ ih => exact Forms.negated ho ih
  | lambda _ ih => exact Forms.lambda ih
  | application _ _ _ _ ihc ihg => exact Forms.application ihc ihg
  | property _ _ _ ih => exact Forms.property ih
  | number _ | string _ | trueConstant _ | falseConstant _ | nilConstant _ => exact Forms.constant
  | name hn => exact Forms.name hn
  | this hk => exact Forms.this hk
  | super hk _ _ => exact Forms.super hk
  | grouping _ _ _ ih => exact Forms.grouping ih
  | given _ ih => exact Forms.given ih
  | lastArgument _ ih => exact Forms.lastArgument ih
  | argument _ _ _ ihf ihr => exact Forms.argument ihf ihr
  | lastParameter hn => exact Forms.lastParameter hn
  | parameter hn _ _ ih => exact Forms.parameter hn ih
  | routine _ _ hn _ _ _ _ ihp ihb => exact Forms.routine hn ihp ihb
  | anonymous _ _ _ _ _ ihp ihb => exact Forms.anonymous ihp ihb
  | extending _ hn => exact Forms.extending hn
  | method _ _ ihf ihr => exact Forms.method ihf ihr
  | classDecl _ hn _ _ _ _ ihs ihm => exact Forms.classDecl hn ihs ihm
  | function _ ih => exact Forms.function ih
  | unset _ hn _ => exact Forms.unset hn
  | set _ hn _ _ _ ih => exact Forms.set hn ih
  | variableInitializer _ ih => exact Forms.variableInitializer ih
  | expressionInitializer _ _ ih => exact Forms.expressionInitializer ih
  | forLoop _ _ _ _ _ _ ihi ihc ihn ihb => exact Forms.forLoop ihi ihc ihn ihb
  | whileLoop _ _ _ ihc ihb => exact Forms.whileLoop ihc ihb
  | conditional _ ih => exact Forms.conditional ih
  | ifOnly _ _ _ ihc ihb => exact Forms.ifOnly ihc ihb
  | ifElse _ _ _ _ _ ihc ihb ihe => exact Forms.ifElse ihc ihb ihe
  | elseIf _ _ _ _ _ ihc ihb ihe => exact Forms.elseIf ihc ihb ihe
  | returnValue _ _ _ ih => exact Forms.returnValue ih
  | breakLoop _ _ => exact Forms.breakLoop
  | blockStatement _ ih => exact Forms.blockStatement ih
  | expressionStatement _ _ ih => exact Forms.expressionStatement ih
  | block _ _ _ ih => exact Forms.block ih
  | declarations _ _ ihd ihds => exact Forms.declarations ihd ihds
  -- A phrase of another category, with the same tree.
  | ternary _ ih | operators _ ih | unary _ ih | operand _ ih | call _ ih | primary _ ih
  | someArguments _ ih | someParameters _ ih | varDecl _ ih | statement _ _ ih => exact ih
  -- Nothing with a name in it is read.
  | noInitializer _ => exact fun hs => ⟨⟨Nat.le_refl _, nofun⟩, hs.tail _⟩
  | omitted | noParameters | noSuperclass => exact fun hs => ⟨⟨Nat.le_refl _, nofun⟩, hs⟩
  | noArguments => exact fun hs => ⟨⟨_, .noExprs, .nil (Nat.le_refl _)⟩, hs⟩
  | noMethods => exact fun hs => ⟨⟨_, .noMethods, .nil (Nat.le_refl _)⟩, hs⟩
  | noDeclarations => exact fun hs => ⟨⟨_, .noStmts, .nil (Nat.le_refl _)⟩, hs⟩

end Grammar

end Lox
