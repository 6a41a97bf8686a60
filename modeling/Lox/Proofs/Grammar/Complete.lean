import Lox.Proofs.Grammar.Fuel
import Lox.Proofs.Grammar.Reads
import Lox.Proofs.Grammar.Sound

/-!
  What can be derived is read.

  The productions decide by the token at the front, so two things are needed of a derivation: with
  which tokens it can begin (`begins_of_derives`), and that the token behind it is none with which a
  longer phrase of the category would go on (`Stand.Free`).  By induction on the derivation every
  phrase is read in full (`complete`).  Operators of a tier and the suffixes of a call are grouped to
  the left in derivations but read from left to right; so what is said of them is that reading comes
  to the point behind the phrase, and goes on there.

  `Complete` says for each category what it is to read a phrase of it: with which production, from which
  point on (a routine and a block are read from behind their first token, which the caller has read), and
  what must not follow.  There is one lemma for each rule of the grammar, `complete_forLoop` for
  `Derives.forLoop` and so on; it is an execution of the production by the rules of `Reads`, token by token,
  with the induction hypotheses for the phrases in it.  The looks that fail on the way are settled by how
  the phrases begin: `hs.not_sees rfl` computes that no phrase of a category begins with a kind, and
  `decide` that a kind is not among those with which a phrase goes on.

  The `else` of a conditional is the one place where what follows a statement matters: a statement is
  complete only if no `else` is behind it, and of the declarations of a block this is true as none begins
  so (`not_sees_else`).
-/

namespace Lox.Grammar

/-! ## How phrases begin

  A rule chooses by the token in front.  So that it chooses as the derivation does, the derivation must begin
  with a token that leads there, or be empty. -/

/-- The kinds of tokens with which a call begins. -/
def startsCall : TokenKind → Bool
  | .number _ | .string _ | .identifier => true
  | .keyword k => [Keyword.trueKw, .falseKw, .nilKw, .thisKw, .superKw].contains k
  | .mark m => decide (m = .leftParen)
  | .eof => false

/-- The kinds of tokens with which an expression begins. -/
def startsExpression (kind : TokenKind) : Bool :=
  startsCall kind || [TokenKind.mark .bang, .mark .minus, .keyword .funcKw].contains kind

/-- The kinds of tokens with which a declaration begins. -/
def startsDeclaration (kind : TokenKind) : Bool :=
  startsExpression kind || startsStatement kind ||
    [TokenKind.keyword .classKw, .keyword .varKw].contains kind

namespace Category

/-- The kinds of tokens with which a phrase of the category begins. -/
def begins : Category → TokenKind → Bool
  | expression | ternary | operators _ | unary | optional | arguments
  | argumentList => startsExpression
  | call | primary => startsCall
  | parameters | parameterList => fun kind => decide (kind = .identifier)
  | routine _ | methods => fun kind => decide (kind = .keyword .funcKw)
  | superclass => fun kind => decide (kind = .mark .less)
  | varDecl => fun kind => decide (kind = .keyword .varKw)
  | initializer => fun kind => startsExpression kind ||
      [TokenKind.mark .semicolon, .keyword .varKw].contains kind
  | conditional _ => fun kind => decide (kind = .keyword .ifKw)
  | block _ => fun kind => decide (kind = .mark .leftBrace)
  | statement _ => fun kind => startsExpression kind || startsStatement kind
  | declaration _ | declarations _ => startsDeclaration

/-- Whether a phrase of the category may be empty. -/
def nullable : Category → Bool
  | optional | arguments | parameters | superclass | methods | declarations _ => true
  | _ => false

end Category

/-- A phrase of the category begins at the stand. -/
def Stand.Begins (s : Stand) (c : Category) : Prop :=
  ∃ t ts i, s = (t :: ts, i) ∧ c.begins t.kind = true

/-- The phrase begins with a token of a kind, or it may be empty and is. -/
def BeginsOrEmpty (c : Category) (s u : Stand) : Prop :=
  s.Begins c ∨ c.nullable = true ∧ u = s

/-- A phrase begins with its first token. -/
theorem BeginsOrEmpty.of_token {c : Category} {t : Token} {ts : List Token} {i : Nat} {u : Stand}
    {kind : TokenKind} (ht : t.kind = kind) (hc : c.begins kind = true) :
    BeginsOrEmpty c (t :: ts, i) u :=
  .inl ⟨t, ts, i, rfl, ht ▸ hc⟩

/-- A phrase begins as its first part does. -/
theorem BeginsOrEmpty.of_first {c c' : Category} {s u v : Stand} (h : BeginsOrEmpty c s u)
    (hc : c.nullable = false) (hk : ∀ kind, c.begins kind = true → c'.begins kind = true) :
    BeginsOrEmpty c' s v := by
  rcases h with ⟨t, ts, i, hs, hb⟩ | ⟨hn, -⟩
  · exact .inl ⟨t, ts, i, hs, hk _ hb⟩
  · rw [hc] at hn
    cases hn

/-- **How phrases begin**: with a token of one of the kinds of their category, if they are not empty. -/
theorem begins_of_derives {c : Category} {s u : Stand} {a : c.Tree} (h : Derives c s a u) :
    BeginsOrEmpty c s u := by
  -- A rule begins with what its first part begins with, or with a token of its own, or is empty.
  induction h with
  | ternary _ ih | operators _ ih | unary _ ih | operand _ ih | primary _ ih | given _ ih
  | someArguments _ ih | lastArgument _ ih | someParameters _ ih | choice _ _ _ _ _ ih _ _
  | operator _ _ _ ih _ | application _ _ _ _ ih _ | property _ _ _ ih | argument _ _ _ ih _
  | method _ _ ih _ | declarations _ _ ih _ =>
    exact ih.of_first rfl fun _ h => h
  | call _ ih | assignProperty _ _ _ _ _ ih _ | statement _ _ ih | expressionInitializer _ _ ih
  | expressionStatement _ _ ih =>
    exact ih.of_first rfl fun _ h => Bool.or_eq_true_iff.mpr (.inl h)
  | lambda _ ih | function _ ih | varDecl _ ih | variableInitializer _ ih | conditional _ ih
  | blockStatement _ ih =>
    refine ih.of_first rfl fun kind h => ?_
    rw [of_decide_eq_true h]
    rfl
  | assignVariable h _ _ _ | name h | lastParameter h | parameter h _ _ _ => exact .of_token h rfl
  | number h | string h => exact .of_token h rfl
  | trueConstant h | falseConstant h | nilConstant h | this h | super h _ _ | grouping h _ _ _ =>
    exact .of_token h rfl
  | negated h _ _ =>
    rcases h with h | h
    · exact .of_token h rfl
    · exact .of_token h rfl
  | routine _ h _ _ _ _ _ _ _ | anonymous h _ _ _ _ _ _ => exact .of_token h rfl
  | extending h _ | classDecl h _ _ _ _ _ _ _ | unset h _ _ | set h _ _ _ _ _ | noInitializer h
  | forLoop h _ _ _ _ _ _ _ _ _ | whileLoop h _ _ _ _ | ifOnly h _ _ _ _ | ifElse h _ _ _ _ _ _ _
  | elseIf h _ _ _ _ _ _ _ | returnValue h _ _ _ | breakLoop h _ | block h _ _ _ =>
    exact .of_token h rfl
  | omitted | noArguments | noParameters | noSuperclass | noMethods | noDeclarations =>
    exact .inr ⟨rfl, rfl⟩

/-! ## How phrases go on

  A rule goes on as long as it can.  So that it stops where the derivation does, the token behind must be one
  that cannot continue the phrase. -/

/-- None of the kinds is at the front. -/
def Stand.Free (u : Stand) (kinds : List TokenKind) : Prop := ∀ kind ∈ kinds, ¬ u.Sees kind

/-- The kinds with which a call goes on. -/
def callEnds : List TokenKind := [.mark .leftParen, .mark .dot]

/-- The kinds with which an expression with operators of the tiers goes on. -/
def operatorEnds (tiers : List Tier) : List TokenKind := callEnds ++ tiers.flatMap Tier.operators

/-- The kinds with which a conditional expression goes on. -/
def ternaryEnds : List TokenKind := .mark .question :: operatorEnds Tier.all

/-- The kinds with which an expression goes on. -/
def expressionEnds : List TokenKind := .mark .equal :: ternaryEnds

/-- The operators of the loosest level that follow a left side. -/
def moreOf : List Level → Nat → Expr → Production Expr
  | [], _, left => pure left
  | level :: tighter, fuel, left => moreOperators fuel level tighter left

/-- A phrase of the category is read from one stand to the other, with any fuel. -/
def Complete : (c : Category) → Stand → c.Tree → Stand → Prop
  | .expression, s, e, u => u.Free expressionEnds → ∀ b fuel, Reads b s (expression fuel) e u
  | .ternary, s, e, u => u.Free ternaryEnds → ∀ b fuel, Reads b s (ternary fuel) e u
  | .operators tiers, s, left, u => tiers.Nodup → u.Free (operatorEnds tiers.tail) →
      ∀ levels, List.Forall₂ Level.Of levels tiers →
      ∀ b e v, (∀ fuel, Reads b u (moreOf levels fuel left) e v) →
      ∀ fuel, Reads b s (operators fuel levels) e v
  | .unary, s, e, u => u.Free callEnds → ∀ b fuel, Reads b s (unary fuel) e u
  | .call, s, callee, u => ∀ b e v, (∀ fuel, Reads b u (calls fuel callee) e v) →
      ∀ fuel, Reads b s (primary fuel >>= calls fuel) e v
  | .primary, s, e, u => ∀ b fuel, Reads b s (primary fuel) e u
  | .optional, s, e, u => ∀ stop, u.Sees stop → startsExpression stop = false →
      stop ∉ expressionEnds →
      ∀ b fuel, Reads b s (unlessSees stop none (some <$> expression fuel)) e u
  | .arguments, s, es, u => u.Sees (.mark .rightParen) →
      ∀ b fuel, Reads b s (unlessSees (.mark .rightParen) [] (arguments fuel)) es u
  | .argumentList, s, es, u => u.Sees (.mark .rightParen) → ∀ b fuel, Reads b s (arguments fuel) es u
  | .parameters, s, names, u => u.Sees (.mark .rightParen) →
      ∀ b fuel, Reads b s (unlessSees (.mark .rightParen) [] (parameters fuel)) names u
  | .parameterList, s, names, u => u.Sees (.mark .rightParen) →
      ∀ b fuel, Reads b s (parameters fuel) names u
  | .routine kind, s, d, u => ∀ keyword ts i, s = (keyword :: ts, i) →
      ∀ b fuel, Reads b (ts, i) (routine fuel kind keyword) d u
  | .superclass, s, name, u => u.Sees (.mark .leftBrace) → ∀ b, Reads b s superclassClause name u
  | .methods, s, ds, u => u.Sees (.mark .rightBrace) → ∀ b fuel, Reads b s (methods fuel) ds u
  | .varDecl, s, d, u => ∀ keyword ts i, s = (keyword :: ts, i) →
      ∀ b fuel, Reads b (ts, i) (varDeclaration fuel) d u
  | .initializer, s, d, u =>
      ∀ b fuel, Reads b s (loopInitializer (varDeclaration fuel) (expression fuel)) d u
  | .conditional inLoop, s, d, u => ¬ u.Sees (.keyword .elseKw) →
      ∀ keyword ts i, s = (keyword :: ts, i) → ∀ fuel, Reads inLoop (ts, i) (ifStatement fuel) d u
  | .statement inLoop, s, d, u => ¬ u.Sees (.keyword .elseKw) →
      ∀ fuel, Reads inLoop s (statement fuel) d u
  | .block inLoop, s, ds, u => ∀ left ts i, s = (left :: ts, i) →
      ∀ fuel, Reads inLoop (ts, i) (block fuel) ds u
  | .declaration inLoop, s, d, u => ¬ u.Sees (.keyword .elseKw) →
      ∀ fuel, Reads inLoop s (phrase fuel) d u
  | .declarations inLoop, s, ds, u => ∀ inBlock, u.1 = [] ∨ inBlock = true ∧ u.Sees (.mark .rightBrace) →
      ∀ fuel, Reads inLoop s (declarations fuel inBlock) ds u

/-! ## Expressions

  From the innermost rule to the outermost, each with the token behind it in mind. -/

/-- What is at the front is the first token. -/
@[simp] theorem Stand.sees_cons {t : Token} {ts : List Token} {i : Nat} {kind : TokenKind} :
    Stand.Sees (t :: ts, i) kind ↔ t.kind = kind := by
  simp [Stand.Sees]

/-- With fewer kinds there are fewer to exclude. -/
theorem Stand.Free.mono {u : Stand} {kinds fewer : List TokenKind} (h : u.Free kinds)
    (hf : fewer ⊆ kinds) : u.Free fewer :=
  fun kind hk => h kind (hf hk)

/-- A token of another kind is at the front. -/
theorem Stand.free_of_sees {u : Stand} {kind : TokenKind} {kinds : List TokenKind}
    (h : u.Sees kind) (hn : kind ∉ kinds) : u.Free kinds := by
  obtain ⟨t, ts, hts, ht⟩ := h
  rintro k hk ⟨t', ts', hts', ht'⟩
  rw [hts] at hts'
  cases hts'
  exact hn (ht.symm.trans ht' ▸ hk)

/-- There is one kind at the front. -/
theorem Stand.not_sees_of_sees {u : Stand} {kind other : TokenKind} (h : u.Sees kind)
    (hn : kind ≠ other) : ¬ u.Sees other := by
  have hfree : u.Free [other] := Stand.free_of_sees h (by simpa using hn)
  exact hfree other List.mem_cons_self

/-- A stand that begins with a token of another kind. -/
theorem Stand.free_of_kind {t : Token} {ts : List Token} {i : Nat} {kind : TokenKind}
    {kinds : List TokenKind} (h : t.kind = kind) (hn : kind ∉ kinds) :
    Stand.Free (t :: ts, i) kinds :=
  Stand.free_of_sees (Stand.sees_cons.mpr h) hn

/-- A phrase does not begin with a kind that is none of its category. -/
theorem Stand.Begins.not_sees {s : Stand} {c : Category} {kind : TokenKind} (h : s.Begins c)
    (hk : c.begins kind = false) : ¬ s.Sees kind := by
  obtain ⟨t, ts, i, rfl, ht⟩ := h
  rw [Stand.sees_cons]
  rintro rfl
  rw [hk] at ht
  cases ht

section Expressions

variable {s u : Stand}

/-- Behind a call that has no more suffixes reading of suffixes stops. -/
theorem reads_calls_stop {b : Bool} {e : Expr} (hu : u.Free callEnds) :
    ∀ fuel, Reads b u (calls fuel e) e u := by
  refine .rule rfl fun fuel => .passKind (hu _ (by decide)) ?_
  exact .passKind (hu _ (by decide)) .pure

/-- An atom is a call without suffixes: what can be read behind it can be read behind the call. -/
theorem complete_primary {e : Expr} (ih : Complete .primary s e u) : Complete .call s e u :=
  fun b _ _ h fuel => (ih b fuel).bind (h fuel)

/-- A call begins with no prefix operator and with no `func`. -/
theorem complete_call {e : Expr} (hs : s.Begins .call) (ih : Complete .call s e u) :
    Complete .unary s e u := by
  intro hu b
  refine .rule rfl fun fuel => .pass (Reads.passes_marks fun m hm => hs.not_sees ?_)
    (.passKind (hs.not_sees rfl) (ih b e u (reads_calls_stop hu) fuel))
  simp only [List.mem_cons, List.not_mem_nil, or_false] at hm
  rcases hm with rfl | rfl <;> rfl

/-- Without tiers an expression with operators is one without. -/
theorem complete_unary {e : Expr} (ih : Complete .unary s e u) :
    Complete (.operators []) s e u := by
  intro _ hu levels hl b e' v h
  cases hl
  refine .rule rfl fun fuel => ?_
  have hread := (ih hu b fuel).bind (h fuel)
  rwa [show (unary fuel >>= fun a => moreOf [] fuel a) = unary fuel from bind_pure _] at hread

/-- An expression goes on with operators of the first tier or with what follows the tighter ones. -/
theorem operatorEnds_cons (tier : Tier) (tiers : List Tier) (kind : TokenKind) :
    kind ∈ operatorEnds (tier :: tiers) ↔
      kind ∈ tier.operators ∨ kind ∈ operatorEnds tiers := by
  simp only [operatorEnds, List.flatMap_cons, List.mem_append]
  tauto

/-- There are no other tiers. -/
theorem Tier.mem_all (tier : Tier) : tier ∈ Tier.all := by
  cases tier <;> decide

/-- No operator is one of two tiers. -/
theorem Tier.operators_disjoint : ∀ tier ∈ Tier.all, ∀ other ∈ Tier.all, tier ≠ other →
    ∀ kind ∈ tier.operators, kind ∉ other.operators := by
  decide

/-- No operator is what a call goes on with. -/
theorem Tier.not_mem_callEnds : ∀ tier ∈ Tier.all, ∀ kind ∈ tier.operators, kind ∉ callEnds := by
  decide

/-- With an operator no expression of tighter tiers goes on. -/
theorem not_mem_operatorEnds {tier : Tier} {tighter : List Tier} {kind : TokenKind}
    (hn : (tier :: tighter).Nodup) (h : kind ∈ tier.operators) : kind ∉ operatorEnds tighter := by
  rw [operatorEnds, List.mem_append, List.mem_flatMap]
  rintro (hk | ⟨other, ht, hk⟩)
  · exact Tier.not_mem_callEnds _ tier.mem_all _ h hk
  · refine Tier.operators_disjoint _ tier.mem_all _ other.mem_all ?_ _ h hk
    rintro rfl
    exact (List.nodup_cons.mp hn).1 ht

/-- Behind an expression with operators of the tiers, reading stops. -/
theorem reads_operators {tiers : List Tier} {levels : List Level} {e : Expr}
    (ih : Complete (.operators tiers) s e u) (hn : tiers.Nodup)
    (hl : List.Forall₂ Level.Of levels tiers) (hu : u.Free (operatorEnds tiers)) (b : Bool)
    (fuel : Nat) :
    Reads b s (operators fuel levels) e u := by
  cases hl with
  | nil => exact ih hn hu [] .nil b e u (fun _ => .pure) fuel
  | @cons level tier levels tiers hlevel hl =>
    have htail : u.Free (operatorEnds tiers) :=
      hu.mono fun kind hk => (operatorEnds_cons ..).mpr (.inr hk)
    refine ih hn htail _ (.cons hlevel hl) b e u (.rule rfl fun fuel => .pass ?_ .pure) fuel
    intro t ht
    obtain ⟨ts, hts⟩ := List.head?_eq_some_iff.mp ht
    refine Bool.eq_false_iff.mpr fun ho => ?_
    exact hu _ ((operatorEnds_cons ..).mpr (.inl ((hlevel.holds _).mp ho))) ⟨t, ts, hts, rfl⟩

/-- An operand of a tier is read to its end, and the operators of the tier follow it. -/
theorem complete_operand {tier : Tier} {tighter : List Tier} {e : Expr}
    (ih : Complete (.operators tighter) s e u) : Complete (.operators (tier :: tighter)) s e u := by
  intro hn hu levels hl b e' v h
  cases hl with
  | cons hlevel hl =>
    exact .rule rfl fun fuel => (reads_operators ih hn.of_cons hl hu b fuel).bind (h fuel)

/-- One more operator with its right side: reading goes on from the left side to this operator and from there
    behind the right side. -/
theorem complete_operator {tier : Tier} {tighter : List Tier} {left right : Expr}
    {operator : Token} {ts : List Token} {i : Nat}
    (ihl : Complete (.operators (tier :: tighter)) s left (operator :: ts, i))
    (ho : operator.kind ∈ tier.operators)
    (ihr : Complete (.operators tighter) (ts, i) right u) :
    Complete (.operators (tier :: tighter)) s (tier.tree left operator right) u := by
  intro hn hu levels hl b e' v h
  refine ihl hn (Stand.free_of_kind rfl (not_mem_operatorEnds hn ho)) levels hl b e' v ?_
  cases hl with
  | cons hlevel hl =>
    refine .rule rfl fun fuel => .accept ((hlevel.holds _).mpr ho) ?_
    refine (reads_operators ihr hn.of_cons hl hu b fuel).bind ?_
    rw [hlevel.build]
    exact h fuel

/-- An expression without operators is one with operators of any tiers. -/
theorem complete_operators_of_unary {e : Expr} (ih : Complete .unary s e u) (tiers : List Tier) :
    Complete (.operators tiers) s e u := by
  induction tiers with
  | nil => exact complete_unary ih
  | cons tier tiers iht => exact complete_operand iht

/-- An expression without a question mark, in front of none. -/
theorem complete_operators {e : Expr} (ih : Complete (.operators Tier.all) s e u) :
    Complete .ternary s e u := by
  intro hu b
  refine .rule rfl fun fuel => .bind (reads_operators ih (by decide) levels_of_tiers ?_ b fuel) ?_
  · exact hu.mono (List.subset_cons_self _ _)
  · exact .passKind (hu _ (List.mem_cons_self)) .pure

/-- The condition ends at the question mark, the first branch at the colon. -/
theorem complete_choice {condition thenBranch elseBranch : Expr} {question colon : Token}
    {ts us : List Token} {i j : Nat}
    (ihc : Complete (.operators Tier.all) s condition (question :: ts, i))
    (hq : question.IsMark .question) (iht : Complete .ternary (ts, i) thenBranch (colon :: us, j))
    (hc : colon.IsMark .colon) (ihe : Complete .ternary (us, j) elseBranch u) :
    Complete .ternary s (.ternary condition thenBranch elseBranch) u := by
  intro hu b
  refine .rule rfl fun fuel => .bind (reads_operators ihc (by decide) levels_of_tiers ?_ b fuel) ?_
  · exact Stand.free_of_kind hq (by decide)
  · refine .acceptKind hq (.bind (iht (Stand.free_of_kind hc (by decide)) b fuel) ?_)
    exact .require hc (.bind (ihe hu b fuel) .pure)

/-- An expression in front of no equals sign is no assignment. -/
theorem complete_ternary {e : Expr} (ih : Complete .ternary s e u) :
    Complete .expression s e u := by
  intro hu b
  refine .rule rfl fun fuel => .bind (ih (hu.mono (List.subset_cons_self _ _)) b fuel) ?_
  exact .passKind (hu _ List.mem_cons_self) .pure

/-- A call that stands before an equals sign is read as the left side of an assignment. -/
theorem reads_target {e : Expr} {equals : Token} {ts : List Token} {i : Nat} (hs : s.Begins .call)
    (ih : Complete .call s e (equals :: ts, i)) (he : equals.IsMark .equal) (b : Bool)
    (fuel : Nat) : Reads b s (ternary fuel) e (equals :: ts, i) :=
  complete_operators (complete_operators_of_unary (complete_call hs ih) _)
    (Stand.free_of_kind he (by decide)) b fuel

/-- A name is an atom, and its occurrence gets the next number. -/
theorem complete_name {name : Token} {ts : List Token} {i : Nat} (hn : name.IsName) :
    Complete .primary (name :: ts, i) (.variable ⟨i, name⟩) (ts, i + 1) := by
  intro b
  refine .rule rfl fun fuel => .pass ?_ (.acceptKind hn (.freshRef .pure))
  rintro t ⟨⟩
  rw [hn]
  rfl

/-- The variable on the left is read first, as an expression. Its number is lost and it gets another one
    behind the right side. -/
theorem complete_assignVariable {name equals : Token} {value : Expr} {ts vs : List Token}
    {i j : Nat} (hn : name.IsName) (he : equals.IsMark .equal)
    (ih : Complete .expression (ts, i + 1) value (vs, j)) :
    Complete .expression (name :: equals :: ts, i) (.assign ⟨j, name⟩ value) (vs, j + 1) := by
  intro hu b
  have hs : Stand.Begins (name :: equals :: ts, i) .call := ⟨_, _, _, rfl, by rw [hn]; rfl⟩
  have hname : Complete .primary (name :: equals :: ts, i) (.variable ⟨i, name⟩)
      (equals :: ts, i + 1) := complete_name hn
  refine .rule rfl fun fuel => .bind (reads_target hs (complete_primary hname) he b fuel) ?_
  exact .acceptKind he (.bind (ih hu b fuel) (.freshRef .pure))

/-- A property is one more suffix. -/
theorem complete_property {object : Expr} {dot name : Token} {ts : List Token} {i : Nat}
    (ih : Complete .call s object (dot :: name :: ts, i)) (hd : dot.IsMark .dot)
    (hn : name.IsName) : Complete .call s (.get object name) (ts, i) := by
  intro b e v h
  refine ih b e v (.rule rfl fun fuel => .passKind ?_ (.acceptKind hd (.require hn (h fuel))))
  rw [Stand.sees_cons, hd]
  exact nofun

/-- A property on the left is read as an expression, of which the object and the name are kept. -/
theorem complete_assignProperty {object value : Expr} {dot name equals : Token} {ts : List Token}
    {i : Nat} (hs : s.Begins .call) (iho : Complete .call s object (dot :: name :: equals :: ts, i))
    (hd : dot.IsMark .dot) (hn : name.IsName) (he : equals.IsMark .equal)
    (ihv : Complete .expression (ts, i) value u) :
    Complete .expression s (.set object name value) u := by
  intro hu b
  have hcall := complete_property iho hd hn
  refine .rule rfl fun fuel => .bind (reads_target hs hcall he b fuel) ?_
  exact .acceptKind he (.bind (ihv hu b fuel) .pure)

/-- Prefix operators are read from the left. -/
theorem complete_negated {operator : Token} {right : Expr} {ts : List Token} {i : Nat}
    (ho : operator.IsMark .bang ∨ operator.IsMark .minus) (ih : Complete .unary (ts, i) right u) :
    Complete .unary (operator :: ts, i) (.unary operator right) u := by
  intro hu b
  refine .rule rfl fun fuel => .accept ?_ (.bind (ih hu b fuel) .pure)
  rcases ho with ho | ho <;> rw [ho] <;> rfl

/-- A function without a name begins with `func`, which is no prefix operator. -/
theorem complete_lambda {d : FunctionDecl} (hs : s.Begins (.routine .lambda))
    (ih : Complete (.routine .lambda) s d u) : Complete .unary s (.lambda d) u := by
  intro hu b
  obtain ⟨keyword, ts, i, rfl, hk⟩ := hs
  replace hk : keyword.kind = .keyword .funcKw := of_decide_eq_true hk
  refine .rule rfl fun fuel => .pass ?_ (.acceptKind hk (.bind (ih keyword ts i rfl b fuel) .pure))
  rintro t ⟨⟩
  rw [hk]

/-- An application is one more suffix. -/
theorem complete_application {callee : Expr} {left right : Token} {given : List Expr}
    {ts us : List Token} {i j : Nat} (ihc : Complete .call s callee (left :: ts, i))
    (hl : left.IsMark .leftParen) (ihg : Complete .arguments (ts, i) given (right :: us, j))
    (hr : right.IsMark .rightParen) : Complete .call s (.call callee right given) (us, j) := by
  intro b e v h
  refine ihc b e v (.rule rfl fun fuel => .acceptKind hl ?_)
  exact .bind (ihg (Stand.sees_cons.mpr hr) b fuel) (.require hr (h fuel))

/-! ## Atoms -/

/-- Literals and the constant keywords are read in one way. -/
theorem complete_constant {t : Token} {ts : List Token} {i : Nat} {l : Literal}
    (h : constant? t.kind = some l) : Complete .primary (t :: ts, i) (.literal l) (ts, i) := by
  intro b
  have hl : (constant? t.kind).getD .nil = l := by rw [h]; rfl
  refine .rule rfl fun fuel => .accept (by rw [h]; rfl) ?_
  subst hl
  exact .pure

/-- In front of a parenthesis none of the atoms before it is found, and the expression in it ends at the
    other one. -/
theorem complete_grouping {left right : Token} {inner : Expr} {ts us : List Token} {i j : Nat}
    (hl : left.IsMark .leftParen) (ih : Complete .expression (ts, i) inner (right :: us, j))
    (hr : right.IsMark .rightParen) :
    Complete .primary (left :: ts, i) (.grouping inner) (us, j) := by
  intro b
  refine .rule rfl fun fuel => .pass ?_ (.passKind ?_ (.acceptKind hl ?_))
  · rintro t ⟨⟩
    rw [hl]
    rfl
  · rw [Stand.sees_cons, hl]
    exact nofun
  · exact .bind (ih (Stand.free_of_kind hr (by decide)) b fuel) (.require hr .pure)

/-- In front of `this` none of the other atoms is found. -/
theorem complete_this {keyword : Token} {ts : List Token} {i : Nat}
    (hk : keyword.IsKeyword .thisKw) :
    Complete .primary (keyword :: ts, i) (.this ⟨i, keyword⟩) (ts, i + 1) := by
  intro b
  refine .rule rfl fun fuel => .pass ?_ (.passKind ?_ (.passKind ?_ (.acceptKind hk
    (.freshRef .pure))))
  · rintro t ⟨⟩
    rw [hk]
    rfl
  all_goals
    rw [Stand.sees_cons, hk]
    exact nofun

/-- In front of `super` none of the other atoms is found; the number is that of the keyword. -/
theorem complete_super {keyword dot method : Token} {ts : List Token} {i : Nat}
    (hk : keyword.IsKeyword .superKw) (hd : dot.IsMark .dot) (hm : method.IsName) :
    Complete .primary (keyword :: dot :: method :: ts, i) (.super ⟨i, keyword⟩ method)
      (ts, i + 1) := by
  intro b
  refine .rule rfl fun fuel => .pass ?_ (.passKind ?_ (.passKind ?_ (.passKind ?_ (.acceptKind hk
    (.require hd (.require hm (.freshRef .pure)))))))
  · rintro t ⟨⟩
    rw [hk]
    rfl
  all_goals
    rw [Stand.sees_cons, hk]
    exact nofun

/-! ## Lists -/

/-- Where the token is that follows, the expression is left out. -/
theorem complete_omitted : Complete .optional s none s :=
  fun _ hstop _ _ _ _ => .omitted hstop

/-- An expression begins with none of the tokens that may follow it. -/
theorem complete_given {e : Expr} (hs : s.Begins .expression) (ih : Complete .expression s e u) :
    Complete .optional s (some e) u :=
  fun _ hstop hb hends b fuel =>
    .given (hs.not_sees hb) (.map (ih (Stand.free_of_sees hstop hends) b fuel))

/-- In front of the closing parenthesis there are no arguments. -/
theorem complete_noArguments : Complete .arguments s [] s :=
  fun hu _ _ => .omitted hu

/-- Arguments do not begin with a parenthesis that closes. -/
theorem complete_someArguments {es : List Expr} (hs : s.Begins .argumentList)
    (ih : Complete .argumentList s es u) : Complete .arguments s es u :=
  fun hu b fuel => .given (hs.not_sees rfl) (ih hu b fuel)

/-- Behind the last argument there is no comma. -/
theorem complete_lastArgument {e : Expr} (ih : Complete .expression s e u) :
    Complete .argumentList s [e] u := by
  intro hu b
  refine .rule rfl fun fuel => .bind (ih (Stand.free_of_sees hu (by decide)) b fuel) ?_
  refine .passKind ?_ .pure
  exact Stand.not_sees_of_sees hu (by decide)

/-- An argument ends at its comma. -/
theorem complete_argument {first : Expr} {comma : Token} {ts : List Token} {i : Nat}
    {rest : List Expr} (ihf : Complete .expression s first (comma :: ts, i))
    (hc : comma.IsMark .comma) (ihr : Complete .argumentList (ts, i) rest u) :
    Complete .argumentList s (first :: rest) u := by
  intro hu b
  refine .rule rfl fun fuel => .bind (ihf (Stand.free_of_kind hc (by decide)) b fuel) ?_
  exact .acceptKind hc (.bind (ihr hu b fuel) .pure)

/-- In front of the closing parenthesis there are no parameters. -/
theorem complete_noParameters : Complete .parameters s [] s :=
  fun hu _ _ => .omitted hu

/-- Parameters begin with a name. -/
theorem complete_someParameters {names : List Token} (hs : s.Begins .parameterList)
    (ih : Complete .parameterList s names u) : Complete .parameters s names u :=
  fun hu b fuel => .given (hs.not_sees rfl) (ih hu b fuel)

/-- Behind the last parameter there is no comma. -/
theorem complete_lastParameter {name : Token} {ts : List Token} {i : Nat} (hn : name.IsName) :
    Complete .parameterList (name :: ts, i) [name] (ts, i) := by
  intro hu b
  refine .rule rfl fun fuel => .require hn (.passKind ?_ .pure)
  exact Stand.not_sees_of_sees hu (by decide)

/-- A parameter and its comma. -/
theorem complete_parameter {name comma : Token} {ts : List Token} {i : Nat} {rest : List Token}
    (hn : name.IsName) (hc : comma.IsMark .comma) (ih : Complete .parameterList (ts, i) rest u) :
    Complete .parameterList (name :: comma :: ts, i) (name :: rest) u := by
  intro hu b
  exact .rule rfl fun fuel => .require hn (.acceptKind hc (.bind (ih hu b fuel) .pure))

end Expressions

/-! ## Functions and declarations -/

section Declarations

variable {s u : Stand}

/-- Behind the name of a function, its parameters in parentheses and its body are read. -/
theorem reads_signature {b : Bool} {kind : Routine} {name : Option Token} {keyword left right : Token}
    {ts us : List Token} {i j : Nat} {params : List Token} {body : List Stmt}
    (hl : left.IsMark .leftParen) (ihp : Complete .parameters (ts, i) params (right :: us, j))
    (hr : right.IsMark .rightParen) (hb : Stand.Begins (us, j) (.block false))
    (ihb : Complete (.block false) (us, j) body u) (fuel : Nat) :
    Reads b (left :: ts, i) (do
      let _ ← expect (.parametersStart kind)
      let params ← unlessSees (.mark .rightParen) [] (parameters fuel)
      let _ ← expect .parametersEnd
      let _ ← expect (.bodyStart kind)
      let body ← withLoops (fun _ => 0) (block fuel)
      pure (FunctionDecl.mk name keyword params body)) (.mk name keyword params body) u := by
  obtain ⟨brace, vs, k, heq, hbrace⟩ := hb
  cases heq
  refine .require hl (.bind (ihp (Stand.sees_cons.mpr hr) b fuel) ?_)
  refine .require hr (.require (of_decide_eq_true hbrace) (.bind ?_ .pure))
  have hdepth : ∀ _ : Nat, false = true → 0 < 0 := nofun
  exact .withLoops hdepth (ihb brace vs _ rfl fuel)

/-- A function with a name: a declared one or a method. -/
theorem complete_routine {kind : Routine} {keyword name left right : Token} {ts us : List Token}
    {i j : Nat} {params : List Token} {body : List Stmt} (hkind : kind ≠ .lambda)
    (hn : name.IsName) (hl : left.IsMark .leftParen)
    (ihp : Complete .parameters (ts, i) params (right :: us, j)) (hr : right.IsMark .rightParen)
    (hb : Stand.Begins (us, j) (.block false)) (ihb : Complete (.block false) (us, j) body u) :
    Complete (.routine kind) (keyword :: name :: left :: ts, i)
      (.mk (some name) keyword params body) u := by
  rintro _ _ _ ⟨⟩ b
  refine .rule rfl fun fuel => ?_
  rw [routine, routineName, if_neg hkind, bind_map_left]
  exact .require hn (reads_signature hl ihp hr hb ihb fuel)

/-- A function without a name. -/
theorem complete_anonymous {keyword left right : Token} {ts us : List Token}
    {i j : Nat} {params : List Token} {body : List Stmt} (hl : left.IsMark .leftParen)
    (ihp : Complete .parameters (ts, i) params (right :: us, j)) (hr : right.IsMark .rightParen)
    (hb : Stand.Begins (us, j) (.block false)) (ihb : Complete (.block false) (us, j) body u) :
    Complete (.routine .lambda) (keyword :: left :: ts, i) (.mk none keyword params body) u := by
  rintro _ _ _ ⟨⟩ b
  refine .rule rfl fun fuel => ?_
  rw [routine, routineName, if_pos rfl, pure_bind]
  exact reads_signature hl ihp hr hb ihb fuel

/-- In front of the body of a class there is no superclass. -/
theorem complete_noSuperclass : Complete .superclass s none s := by
  intro hu b
  rw [← bind_pure superclassClause]
  exact .absent (Stand.not_sees_of_sees hu (by decide)) .pure

/-- The superclass is an occurrence of its name and gets a number. -/
theorem complete_extending {less name : Token} {ts : List Token} {i : Nat} (hl : less.IsMark .less)
    (hn : name.IsName) :
    Complete .superclass (less :: name :: ts, i) (some ⟨i, name⟩) (ts, i + 1) := by
  intro hu b
  rw [← bind_pure superclassClause]
  refine .behind hl ?_
  rw [bind_assoc]
  exact .require hn (.freshRef .pure)

/-- The methods end at the brace that closes the class. -/
theorem complete_noMethods : Complete .methods s [] s := by
  intro hu b
  refine .rule rfl fun fuel => .sees hu ?_
  obtain ⟨t, ts, hts, -⟩ := hu
  exact .atEndNot (by rw [hts]; exact nofun) .pure

/-- Each method begins with `func`, so neither the brace nor the end of the tokens is met. -/
theorem complete_method {first : FunctionDecl} {rest : List FunctionDecl} {v : Stand}
    (hs : s.Begins (.routine .method)) (ihf : Complete (.routine .method) s first v)
    (ihr : Complete .methods v rest u) : Complete .methods s (first :: rest) u := by
  intro hu b
  refine .rule rfl fun fuel => .seesNot (hs.not_sees rfl) ?_
  obtain ⟨keyword, ts, i, rfl, hk⟩ := hs
  refine .atEndNot (by exact nofun) (.require (of_decide_eq_true hk) ?_)
  exact .bind (ihf keyword ts i rfl b fuel) (.bind (ihr hu b fuel) .pure)

/-- A class begins with its keyword, which comes first among the declarations. -/
theorem complete_classDecl {inLoop : Bool} {keyword name left right : Token}
    {ts us vs : List Token} {i j k : Nat} {superclass : Option Ref} {ds : List FunctionDecl}
    (hk : keyword.IsKeyword .classKw) (hn : name.IsName)
    (ihs : Complete .superclass (ts, i) superclass (left :: us, j)) (hl : left.IsMark .leftBrace)
    (ihm : Complete .methods (us, j) ds (right :: vs, k)) (hr : right.IsMark .rightBrace) :
    Complete (.declaration inLoop) (keyword :: name :: ts, i) (.classDecl name superclass ds)
      (vs, k) := by
  intro _
  refine .rule rfl fun fuel => .acceptKind hk (.rule rfl (fun fuel => ?_) fuel)
  refine .require hn (.bind (ihs (Stand.sees_cons.mpr hl) inLoop) (.require hl ?_))
  exact .bind (ihm (Stand.sees_cons.mpr hr) inLoop fuel) (.require hr .pure)

/-- A declaration that begins with `func` is that of a function. -/
theorem complete_function {inLoop : Bool} {d : FunctionDecl} (hs : s.Begins (.routine .function))
    (ih : Complete (.routine .function) s d u) :
    Complete (.declaration inLoop) s (.funcDecl d) u := by
  intro _
  obtain ⟨keyword, ts, i, rfl, hk⟩ := hs
  replace hk : keyword.kind = .keyword .funcKw := of_decide_eq_true hk
  refine .rule rfl fun fuel => .passKind ?_ (.acceptKind hk (.bind (ih _ _ _ rfl _ fuel) .pure))
  rw [Stand.sees_cons, hk]
  exact nofun

/-- A declaration that begins with `var` is that of a variable. -/
theorem complete_varDecl {inLoop : Bool} {d : Stmt} (hs : s.Begins .varDecl)
    (ih : Complete .varDecl s d u) : Complete (.declaration inLoop) s d u := by
  intro _
  obtain ⟨keyword, ts, i, rfl, hk⟩ := hs
  replace hk : keyword.kind = .keyword .varKw := of_decide_eq_true hk
  refine .rule rfl fun fuel => .passKind ?_ (.passKind ?_ (.acceptKind hk (ih _ _ _ rfl _ fuel)))
  all_goals
    rw [Stand.sees_cons, hk]
    exact nofun

/-- A statement that does not begin with `func` begins like no other declaration. -/
theorem complete_statement {inLoop : Bool} {d : Stmt} (hs : s.Begins (.statement inLoop))
    (hf : s.NotFunc) (ih : Complete (.statement inLoop) s d u) :
    Complete (.declaration inLoop) s d u := by
  intro hu
  refine .rule rfl fun fuel => .passKind (hs.not_sees rfl) (.passKind ?_
    (.passKind (hs.not_sees rfl) (ih hu fuel)))
  rintro ⟨t, ts, hts, ht⟩
  exact hf t (by rw [hts]; rfl) ht

/-- A variable without a value, in front of the semicolon. -/
theorem complete_unset {keyword name stop : Token} {ts : List Token} {i : Nat} (hn : name.IsName)
    (ht : stop.IsMark .semicolon) :
    Complete .varDecl (keyword :: name :: stop :: ts, i) (.varDecl name none) (ts, i) := by
  rintro _ _ _ ⟨⟩ b
  refine .rule rfl fun fuel => .require hn (.absent ?_ (.require ht .pure))
  rw [Stand.sees_cons, ht]
  exact nofun

/-- A variable with a value, which ends at the semicolon. -/
theorem complete_set {keyword name equals stop : Token} {value : Expr} {ts us : List Token}
    {i j : Nat} (hn : name.IsName) (he : equals.IsMark .equal)
    (ih : Complete .expression (ts, i) value (stop :: us, j)) (ht : stop.IsMark .semicolon) :
    Complete .varDecl (keyword :: name :: equals :: ts, i) (.varDecl name (some value)) (us, j) := by
  rintro _ _ _ ⟨⟩ b
  refine .rule rfl fun fuel => .require hn (.behind he ?_)
  exact .bind (ih (Stand.free_of_kind ht (by decide)) b fuel) (.require ht .pure)

end Declarations

/-! ## Statements

  A statement ends with its own token, so what follows on it does not matter, but for `else`. -/

/-- No expression begins like another statement. -/
theorem not_startsStatement {kind : TokenKind} (h : startsExpression kind = true) :
    startsStatement kind = false := by
  cases kind with
  | mark m => cases m <;> simp_all [startsExpression, startsCall, startsStatement]
  | keyword k => cases k <;> simp_all [startsExpression, startsCall, startsStatement]
  | _ => rfl

section Statements

variable {inLoop : Bool} {s u : Stand}

/-- If a category begins with one kind only, this is what is at the front. -/
theorem Stand.Begins.sees {s : Stand} {c : Category} {kind : TokenKind} (h : s.Begins c)
    (hk : ∀ k, c.begins k = true → k = kind) : s.Sees kind := by
  obtain ⟨t, ts, i, rfl, ht⟩ := h
  exact Stand.sees_cons.mpr (hk _ ht)

/-- A block begins with a brace. -/
theorem Stand.Begins.brace (h : s.Begins (.block inLoop)) : s.Sees (.mark .leftBrace) :=
  h.sees fun _ => of_decide_eq_true

/-- A block is read as a statement. -/
theorem reads_block {ds : List Stmt} (hs : s.Begins (.block inLoop))
    (ih : Complete (.block inLoop) s ds u) (fuel : Nat) :
    Reads inLoop s (statement fuel) (.block ds) u := by
  obtain ⟨left, ts, i, rfl, hl⟩ := hs
  replace hl : left.kind = .mark .leftBrace := of_decide_eq_true hl
  refine .rule rfl (fun fuel => .accept (by rw [hl]; rfl) ?_) fuel
  dsimp only
  rw [hl]
  exact .bind (ih left ts i rfl fuel) .pure

/-- A block is a statement. -/
theorem complete_blockStatement {ds : List Stmt} (hs : s.Begins (.block inLoop))
    (ih : Complete (.block inLoop) s ds u) : Complete (.statement inLoop) s (.block ds) u :=
  fun _ => reads_block hs ih

/-- A statement that begins with `if` is read by the production of conditionals. -/
theorem complete_conditional {d : Stmt} (hs : s.Begins (.conditional inLoop))
    (ih : Complete (.conditional inLoop) s d u) : Complete (.statement inLoop) s d u := by
  intro hu
  obtain ⟨keyword, ts, i, rfl, hk⟩ := hs
  replace hk : keyword.kind = .keyword .ifKw := of_decide_eq_true hk
  refine .rule rfl fun fuel => .accept (by rw [hk]; rfl) ?_
  dsimp only
  rw [hk]
  exact ih hu keyword ts i rfl fuel

/-- The body of a loop is read one loop deeper, so in it a `break` is not reported. -/
theorem complete_whileLoop {keyword : Token} {ts : List Token} {i : Nat} {condition : Expr}
    {v : Stand} {ds : List Stmt} (hk : keyword.IsKeyword .whileKw)
    (ihc : Complete .expression (ts, i) condition v) (hb : v.Begins (.block true))
    (ihb : Complete (.block true) v ds u) :
    Complete (.statement inLoop) (keyword :: ts, i) (.whileLoop condition (.block ds)) u := by
  intro _
  replace hk : keyword.kind = .keyword .whileKw := hk
  refine .rule rfl fun fuel => .accept (by rw [hk]; rfl) ?_
  dsimp only
  rw [hk]
  have hdepth (n : Nat) (_ : true = true) : 0 < n + 1 := Nat.succ_pos n
  refine .withLoops hdepth (.rule rfl (fun fuel => ?_) fuel)
  refine .bind (ihc (Stand.free_of_sees hb.brace (by decide)) true fuel) ?_
  exact .checkBlock hb.brace (.bind (reads_block hb ihb fuel) .pure)

/-- A semicolon alone is no initializer. -/
theorem complete_noInitializer {stop : Token} {ts : List Token} {i : Nat}
    (ht : stop.IsMark .semicolon) : Complete .initializer (stop :: ts, i) none (ts, i) :=
  fun _ _ => .acceptKind ht .pure

/-- An initializer that begins with `var` declares a variable. -/
theorem complete_variableInitializer {d : Stmt} (hs : s.Begins .varDecl)
    (ih : Complete .varDecl s d u) : Complete .initializer s (some d) u := by
  intro b fuel
  refine .passKind (hs.not_sees rfl) ?_
  obtain ⟨keyword, ts, i, rfl, hk⟩ := hs
  exact .acceptKind (of_decide_eq_true hk) (.map (ih keyword ts i rfl b fuel))

/-- An initializer that is an expression ends at its semicolon. -/
theorem complete_expressionInitializer {e : Expr} {stop : Token} {ts : List Token} {i : Nat}
    (hs : s.Begins .expression) (ih : Complete .expression s e (stop :: ts, i))
    (ht : stop.IsMark .semicolon) : Complete .initializer s (some (.expression e)) (ts, i) := by
  intro b fuel
  refine .passKind (hs.not_sees rfl) (.passKind (hs.not_sees rfl) ?_)
  exact .bind (ih (Stand.free_of_kind ht (by decide)) b fuel) (.require ht .pure)

/-- The parts of the head in their order, the body one loop deeper, and the tree that is made of them. -/
theorem complete_forLoop {keyword stop : Token} {ts us : List Token} {i j : Nat}
    {initializer : Option Stmt} {condition increment : Option Expr} {v w : Stand} {ds : List Stmt}
    (hk : keyword.IsKeyword .forKw) (ihi : Complete .initializer (ts, i) initializer v)
    (ihc : Complete .optional v condition (stop :: us, j)) (ht : stop.IsMark .semicolon)
    (ihn : Complete .optional (us, j) increment w) (hb : w.Begins (.block true))
    (ihb : Complete (.block true) w ds u) :
    Complete (.statement inLoop) (keyword :: ts, i) (loopTree condition increment ds initializer)
      u := by
  intro _
  replace hk : keyword.kind = .keyword .forKw := hk
  refine .rule rfl fun fuel => .accept (by rw [hk]; rfl) ?_
  dsimp only
  rw [hk]
  have hdepth (n : Nat) (_ : true = true) : 0 < n + 1 := Nat.succ_pos n
  refine .withLoops hdepth (.rule rfl (fun fuel => ?_) fuel)
  refine .bind (ihi true fuel) ?_
  refine .bind (ihc _ (Stand.sees_cons.mpr ht) rfl (by decide) true fuel) (.require ht ?_)
  refine .bind (ihn _ hb.brace rfl (by decide) true fuel) ?_
  refine .checkBlock hb.brace (.bind (reads_block hb ihb fuel) ?_)
  rw [countingLoop_block]
  exact .pure

/-- Where no `else` follows there is no second branch. -/
theorem complete_ifOnly {keyword : Token} {ts : List Token} {i : Nat} {condition : Expr}
    {v : Stand} {thenBranch : List Stmt} (ihc : Complete .expression (ts, i) condition v)
    (hb : v.Begins (.block inLoop)) (ihb : Complete (.block inLoop) v thenBranch u) :
    Complete (.conditional inLoop) (keyword :: ts, i)
      (.ifElse condition (.block thenBranch) none) u := by
  rintro hu _ _ _ ⟨⟩
  refine .rule rfl fun fuel => .bind (ihc (Stand.free_of_sees hb.brace (by decide)) _ fuel) ?_
  exact .checkBlock hb.brace (.bind (reads_block hb ihb fuel) (.passKind hu .pure))

/-- The second branch is a block. -/
theorem complete_ifElse {keyword otherwise : Token} {ts us : List Token} {i j : Nat}
    {condition : Expr} {v : Stand} {thenBranch elseBranch : List Stmt}
    (ihc : Complete .expression (ts, i) condition v) (hb : v.Begins (.block inLoop))
    (ihb : Complete (.block inLoop) v thenBranch (otherwise :: us, j))
    (ho : otherwise.IsKeyword .elseKw) (he : Stand.Begins (us, j) (.block inLoop))
    (ihe : Complete (.block inLoop) (us, j) elseBranch u) :
    Complete (.conditional inLoop) (keyword :: ts, i)
      (.ifElse condition (.block thenBranch) (some (.block elseBranch))) u := by
  rintro hu _ _ _ ⟨⟩
  refine .rule rfl fun fuel => .bind (ihc (Stand.free_of_sees hb.brace (by decide)) _ fuel) ?_
  refine .checkBlock hb.brace (.bind (reads_block hb ihb fuel) (.acceptKind ho ?_))
  refine .seesNot (he.not_sees rfl) (.checkBlock he.brace ?_)
  exact .bind (reads_block he ihe fuel) .pure

/-- The second branch is a conditional: what must not follow it must not follow the whole. -/
theorem complete_elseIf {keyword otherwise : Token} {ts us : List Token} {i j : Nat}
    {condition : Expr} {v : Stand} {thenBranch : List Stmt} {elseBranch : Stmt}
    (ihc : Complete .expression (ts, i) condition v) (hb : v.Begins (.block inLoop))
    (ihb : Complete (.block inLoop) v thenBranch (otherwise :: us, j))
    (ho : otherwise.IsKeyword .elseKw) (he : Stand.Begins (us, j) (.conditional inLoop))
    (ihe : Complete (.conditional inLoop) (us, j) elseBranch u) :
    Complete (.conditional inLoop) (keyword :: ts, i)
      (.ifElse condition (.block thenBranch) (some elseBranch)) u := by
  rintro hu _ _ _ ⟨⟩
  refine .rule rfl fun fuel => .bind (ihc (Stand.free_of_sees hb.brace (by decide)) _ fuel) ?_
  refine .checkBlock hb.brace (.bind (reads_block hb ihb fuel) (.acceptKind ho ?_))
  refine .sees (he.sees fun _ => of_decide_eq_true) ?_
  exact .bind (complete_conditional he ihe hu fuel) .pure

/-- The value of a `return` may be left out, in front of the semicolon. -/
theorem complete_returnValue {keyword stop : Token} {ts us : List Token} {i j : Nat}
    {value : Option Expr} (hk : keyword.IsKeyword .returnKw)
    (ih : Complete .optional (ts, i) value (stop :: us, j)) (ht : stop.IsMark .semicolon) :
    Complete (.statement inLoop) (keyword :: ts, i) (.returnValue keyword value) (us, j) := by
  intro _
  replace hk : keyword.kind = .keyword .returnKw := hk
  refine .rule rfl fun fuel => .accept (by rw [hk]; rfl) ?_
  dsimp only
  rw [hk]
  refine .rule (p := fun fuel => returnStatement fuel keyword) rfl (fun fuel => ?_) fuel
  exact .bind (ih _ (Stand.sees_cons.mpr ht) rfl (by decide) _ fuel) (.require ht .pure)

/-- In a loop a `break` is not reported. -/
theorem complete_breakLoop {keyword stop : Token} {ts : List Token} {i : Nat}
    (hk : keyword.IsKeyword .breakKw) (ht : stop.IsMark .semicolon) :
    Complete (.statement true) (keyword :: stop :: ts, i) (.breakLoop keyword) (ts, i) := by
  intro _
  replace hk : keyword.kind = .keyword .breakKw := hk
  refine .rule rfl fun fuel => .accept (by rw [hk]; rfl) ?_
  dsimp only
  rw [hk]
  rintro c hl hs
  -- With a loop around, the production is this one, without the report.
  have rest : Reads true (stop :: ts, i) (do
      let _ ← expect .breakEnd
      pure (Stmt.breakLoop keyword)) (.breakLoop keyword) (ts, i) := .require ht .pure
  have hrun : breakStatement keyword c = (do
      let _ ← expect .breakEnd
      pure (Stmt.breakLoop keyword)) c := by
    have hpos := hl rfl
    simp [breakStatement, Action.read, Bind.bind, Nat.pos_iff_ne_zero.mp hpos]
  show breakStatement keyword c = _ ∨ breakStatement keyword c = _
  rw [hrun]
  exact rest c hl hs

/-- An expression as a statement ends with a semicolon, in interactive use too, as there is still a token. -/
theorem complete_expressionStatement {e : Expr} {stop : Token} {ts : List Token} {i : Nat}
    (hs : s.Begins .expression) (ih : Complete .expression s e (stop :: ts, i))
    (ht : stop.IsMark .semicolon) :
    Complete (.statement inLoop) s (.expression e) (ts, i) := by
  intro _
  have hpass : Reads.Passes startsStatement s := by
    obtain ⟨t, us, j, rfl, hb⟩ := hs
    rintro _ ⟨⟩
    exact not_startsStatement hb
  refine .rule rfl fun fuel => .pass hpass (.rule rfl (fun fuel => ?_) fuel)
  refine .bind (ih (Stand.free_of_kind ht (by decide)) _ fuel) ?_
  intro c hl hc
  -- The semicolon is still to be read, so this is not the end of an interactive line.
  have hend : (c.interactive && c.atEnd) = false := by
    rw [Cursor.atEnd, show c.ahead = stop :: ts from congrArg Prod.fst hc, List.isEmpty_cons,
      Bool.and_false]
  have rest : Reads inLoop (stop :: ts, i) (do
      let _ ← expect .expressionEnd
      pure (Stmt.expression e)) (.expression e) (ts, i) := .require ht .pure
  have hrun : (if (c.interactive && c.atEnd) = true then pure (Stmt.value e) else do
      let _ ← expect .expressionEnd
      pure (Stmt.expression e)) c = (do
      let _ ← expect .expressionEnd
      pure (Stmt.expression e)) c := by
    rw [hend]
    rfl
  have hread := rest c hl hc
  rw [← hrun] at hread
  exact hread

/-- The declarations of a block end at its brace. -/
theorem complete_block {left right : Token} {ts us : List Token} {i j : Nat} {ds : List Stmt}
    (ih : Complete (.declarations inLoop) (ts, i) ds (right :: us, j))
    (hr : right.IsMark .rightBrace) : Complete (.block inLoop) (left :: ts, i) ds (us, j) := by
  rintro _ _ _ ⟨⟩
  refine .rule rfl fun fuel => ?_
  exact .bind (ih true (.inr ⟨rfl, Stand.sees_cons.mpr hr⟩) fuel) (.require hr .pure)

/-- The declarations end where the tokens do, or in a block at the brace. -/
theorem complete_noDeclarations : Complete (.declarations inLoop) s [] s := by
  intro inBlock hs
  refine .rule (p := fun fuel => declarations fuel inBlock) rfl fun fuel => ?_
  rintro c hl rfl
  right
  rw [declarations_run]
  rcases hs with hs | ⟨rfl, hs⟩
  · rw [Cursor.atEnd, show c.ahead = [] from hs]
    rfl
  · rw [Cursor.sees_iff.mpr hs, Bool.and_self, Bool.or_true]
    rfl

/-- A declaration is read, without a need to recover, and the others behind it. -/
theorem complete_declarations {d : Stmt} {ds : List Stmt} {v : Stand}
    (hs : s.Begins (.declaration inLoop)) (ihd : Complete (.declaration inLoop) s d v)
    (hv : ¬ v.Sees (.keyword .elseKw)) (ihds : Complete (.declarations inLoop) v ds u) :
    Complete (.declarations inLoop) s (d :: ds) u := by
  intro inBlock hu
  refine .rule (p := fun fuel => declarations fuel inBlock) rfl fun fuel => ?_
  have hne : s.1 ≠ [] := by
    obtain ⟨t, ts, i, rfl, -⟩ := hs
    exact nofun
  refine .atEndNot hne (.seesNot (hs.not_sees rfl) ?_)
  rw [Bool.and_false, Bool.or_false]
  have hread : Reads inLoop s (declaration fuel) (some d) v :=
    .rule rfl (fun fuel => .recover (ihd hv fuel)) fuel
  exact .bind hread (.bind (ihds inBlock hu fuel) .pure)

end Statements

/-! ## All derivations

  By induction on the derivation; each case is one of the lemmas above. -/

/-- A phrase that cannot be empty begins. -/
theorem BeginsOrEmpty.begins {c : Category} {s u : Stand} (h : BeginsOrEmpty c s u)
    (hc : c.nullable = false) : s.Begins c := by
  rcases h with h | ⟨hn, -⟩
  · exact h
  · rw [hc] at hn
    cases hn

/-- A derivation of a category that cannot be empty begins as one of its phrases. -/
theorem Derives.begins {c : Category} {s u : Stand} {a : c.Tree} (h : Derives c s a u)
    (hc : c.nullable = false) : s.Begins c :=
  (begins_of_derives h).begins hc

/-- Behind a declaration no `else` follows: the next one does not begin so, nor does what follows
    all of them. -/
theorem not_sees_else {inLoop : Bool} {v u : Stand} {ds : List Stmt}
    (h : Derives (.declarations inLoop) v ds u) (hu : ¬ u.Sees (.keyword .elseKw)) :
    ¬ v.Sees (.keyword .elseKw) := by
  rcases begins_of_derives h with hv | ⟨-, rfl⟩
  · exact hv.not_sees rfl
  · exact hu

/-- **What can be derived is read.** -/
theorem complete {c : Category} {s u : Stand} {a : c.Tree} (h : Derives c s a u) :
    Complete c s a u := by
  induction h with
  | assignVariable hn he _ ih => exact complete_assignVariable hn he ih
  | assignProperty ho hd hn he _ iho ihv =>
    exact complete_assignProperty (ho.begins rfl) iho hd hn he ihv
  | ternary _ ih => exact complete_ternary ih
  | operators _ ih => exact complete_operators ih
  | choice _ hq _ hc _ ihc iht ihe => exact complete_choice ihc hq iht hc ihe
  | unary _ ih => exact complete_unary ih
  | operand _ ih => exact complete_operand ih
  | operator _ ho _ ihl ihr => exact complete_operator ihl ho ihr
  | negated ho _ ih => exact complete_negated ho ih
  | lambda hd ih => exact complete_lambda (hd.begins rfl) ih
  | call hc ih => exact complete_call (hc.begins rfl) ih
  | primary _ ih => exact complete_primary ih
  | application _ hl _ hr ihc ihg => exact complete_application ihc hl ihg hr
  | property _ hd hn ih => exact complete_property ih hd hn
  | number ht | string ht | trueConstant ht | falseConstant ht | nilConstant ht =>
    exact complete_constant (by rw [ht]; rfl)
  | name hn => exact complete_name hn
  | this hk => exact complete_this hk
  | super hk hd hm => exact complete_super hk hd hm
  | grouping hl _ hr ih => exact complete_grouping hl ih hr
  | omitted => exact complete_omitted
  | given he ih => exact complete_given (he.begins rfl) ih
  | noArguments => exact complete_noArguments
  | someArguments hes ih => exact complete_someArguments ((hes.begins rfl)) ih
  | lastArgument _ ih => exact complete_lastArgument ih
  | argument _ hc _ ihf ihr => exact complete_argument ihf hc ihr
  | noParameters => exact complete_noParameters
  | someParameters hn ih => exact complete_someParameters (hn.begins rfl) ih
  | lastParameter hn => exact complete_lastParameter hn
  | parameter hn hc _ ih => exact complete_parameter hn hc ih
  | routine hkind _ hn hl _ hr hb ihp ihb =>
    exact complete_routine hkind hn hl ihp hr (hb.begins rfl) ihb
  | anonymous _ hl _ hr hb ihp ihb => exact complete_anonymous hl ihp hr (hb.begins rfl) ihb
  | noSuperclass => exact complete_noSuperclass
  | extending hl hn => exact complete_extending hl hn
  | noMethods => exact complete_noMethods
  | method hd _ ihf ihr => exact complete_method (hd.begins rfl) ihf ihr
  | classDecl hk hn _ hl _ hr ihs ihm => exact complete_classDecl hk hn ihs hl ihm hr
  | function hd ih => exact complete_function (hd.begins rfl) ih
  | varDecl hd ih => exact complete_varDecl (hd.begins rfl) ih
  | statement hf hd ih => exact complete_statement (hd.begins rfl) hf ih
  | unset _ hn ht => exact complete_unset hn ht
  | set _ hn he _ ht ih => exact complete_set hn he ih ht
  | noInitializer ht => exact complete_noInitializer ht
  | variableInitializer hd ih => exact complete_variableInitializer (hd.begins rfl) ih
  | expressionInitializer he ht ih => exact complete_expressionInitializer (he.begins rfl) ih ht
  | forLoop hk _ _ ht _ hb ihi ihc ihn ihb =>
    exact complete_forLoop hk ihi ihc ht ihn (hb.begins rfl) ihb
  | whileLoop hk _ hb ihc ihb => exact complete_whileLoop hk ihc (hb.begins rfl) ihb
  | conditional hd ih => exact complete_conditional (hd.begins rfl) ih
  | ifOnly _ _ hb ihc ihb => exact complete_ifOnly ihc (hb.begins rfl) ihb
  | ifElse _ _ hb ho he ihc ihb ihe =>
    exact complete_ifElse ihc (hb.begins rfl) ihb ho (he.begins rfl) ihe
  | elseIf _ _ hb ho he ihc ihb ihe =>
    exact complete_elseIf ihc (hb.begins rfl) ihb ho (he.begins rfl) ihe
  | returnValue hk _ ht ih => exact complete_returnValue hk ih ht
  | breakLoop hk ht => exact complete_breakLoop hk ht
  | blockStatement hb ih => exact complete_blockStatement (hb.begins rfl) ih
  | expressionStatement he ht ih => exact complete_expressionStatement (he.begins rfl) ih ht
  | block _ _ hr ih => exact complete_block ih hr
  | noDeclarations => exact complete_noDeclarations
  | declarations hd hds ihd ihds =>
    intro inBlock hu
    refine complete_declarations (hd.begins rfl) ihd (not_sees_else hds ?_) ihds inBlock hu
    -- What follows all declarations is the end or a brace, and no `else`.
    rcases hu with hu | ⟨-, hu⟩
    · rintro ⟨t, ts, hts, -⟩
      rw [hu] at hts
      cases hts
    · exact Stand.not_sees_of_sees hu (by decide)

end Lox.Grammar
