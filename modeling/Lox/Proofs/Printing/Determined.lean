import Lox.Proofs.Printing.Nodes

/-!
  The printout of a program determines its tree.

  Without the numbers of their occurrences and the lines of their tokens (`bare`), two trees that can be read
  are the same if they have the same outline.

  1. `Phrase.Determined` is what is shown of a phrase: any other phrase of its category that can be read and
     has the same outline is the same.  So the induction goes over one tree only, and each of its cases takes
     the other tree as it comes.
  2. The word in the label of a node says which constructor the other tree has (`Stmt.parts`, `Expr.parts`);
     where it is another one the words differ, and `simp` closes the case.
  3. The detail behind the word gives the tokens and constants of the node (`Token.Is.bare_eq`,
     `Literal.outlineText_inj`, `signatureText_inj`, `classLabel_inj`), and the children give the rest, each by
     its own hypothesis (`map_determined`, `option_determined`).

  There is one lemma for each constructor, and `determined_of_worded` names them.  With the drawing read back
  (`Outline.forest_of_text`) two programs that are printed alike are the same (`printout_determines_program`).
-/

namespace Lox

/-! ## Trees without numbers and lines

  This is what an outline can be expected to determine: it shows neither. -/

/-- The occurrence with no number, on no line. -/
def Ref.bare (ref : Ref) : Ref := ⟨0, ref.name.bare⟩

/-- An occurrence without its number is its name. -/
theorem Ref.bare_inj {ref ref' : Ref} (h : ref.name.bare = ref'.name.bare) : ref.bare = ref'.bare :=
  congrArg (Ref.mk 0) h

mutual

/-- The expression without numbers and lines. -/
def Expr.bare : Expr → Expr
  | .literal l => .literal l
  | .grouping e => .grouping e.bare
  | .unary op e => .unary op.bare e.bare
  | .binary l op r => .binary l.bare op.bare r.bare
  | .logical l op r => .logical l.bare op.bare r.bare
  | .ternary c t e => .ternary c.bare t.bare e.bare
  | .variable ref => .variable ref.bare
  | .assign ref e => .assign ref.bare e.bare
  | .call c paren es => .call c.bare paren.bare (bareExprs es)
  | .get o name => .get o.bare name.bare
  | .set o name e => .set o.bare name.bare e.bare
  | .lambda d => .lambda d.bare
  | .this ref => .this ref.bare
  | .super ref method => .super ref.bare method.bare

/-- The expressions without numbers and lines. -/
def bareExprs : List Expr → List Expr
  | [] => []
  | e :: es => e.bare :: bareExprs es

/-- The expression, if there is one, without numbers and lines. -/
def bareOptional : Option Expr → Option Expr
  | none => none
  | some e => some e.bare

/-- The statement without numbers and lines. -/
def Stmt.bare : Stmt → Stmt
  | .expression e => .expression e.bare
  | .value e => .value e.bare
  | .varDecl name e => .varDecl name.bare (bareOptional e)
  | .block ss => .block (bareStmts ss)
  | .ifElse c t e => .ifElse c.bare t.bare (bareElse e)
  | .whileLoop c b => .whileLoop c.bare b.bare
  | .breakLoop keyword => .breakLoop keyword.bare
  | .funcDecl d => .funcDecl d.bare
  | .classDecl name ref ds => .classDecl name.bare (ref.map Ref.bare) (bareMethods ds)
  | .returnValue keyword e => .returnValue keyword.bare (bareOptional e)

/-- The statements without numbers and lines. -/
def bareStmts : List Stmt → List Stmt
  | [] => []
  | s :: ss => s.bare :: bareStmts ss

/-- The branch, if there is one, without numbers and lines. -/
def bareElse : Option Stmt → Option Stmt
  | none => none
  | some s => some s.bare

/-- The function without numbers and lines. -/
def FunctionDecl.bare : FunctionDecl → FunctionDecl
  | .mk name keyword params body =>
    .mk (name.map Token.bare) keyword.bare (params.map Token.bare) (bareStmts body)

/-- The methods without numbers and lines. -/
def bareMethods : List FunctionDecl → List FunctionDecl
  | [] => []
  | d :: ds => d.bare :: bareMethods ds

end

/-- Expressions one by one. -/
theorem bareExprs_eq (es : List Expr) : bareExprs es = es.map Expr.bare := by
  induction es with
  | nil => rfl
  | cons e es ih => exact congrArg (e.bare :: ·) ih

theorem bareOptional_eq (e : Option Expr) : bareOptional e = e.map Expr.bare := by
  cases e <;> rfl

/-- Statements one by one. -/
theorem bareStmts_eq (ss : List Stmt) : bareStmts ss = ss.map Stmt.bare := by
  induction ss with
  | nil => rfl
  | cons s ss ih => exact congrArg (s.bare :: ·) ih

theorem bareElse_eq (s : Option Stmt) : bareElse s = s.map Stmt.bare := by
  cases s <;> rfl

/-- Methods one by one. -/
theorem bareMethods_eq (ds : List FunctionDecl) : bareMethods ds = ds.map FunctionDecl.bare := by
  induction ds with
  | nil => rfl
  | cons d ds ih => exact congrArg (d.bare :: ·) ih

/-! ## What outlines determine

  One lemma for each kind of phrase: from equal outlines to equal labels and children, and from there to equal
  trees by induction. -/

section

variable {α β γ : Type} {f : α → β} {g : α → γ} {P : α → Prop}

/-- What each member of a list determines the list determines. -/
theorem map_determined {xs ys : List α} (h : ∀ x ∈ xs, ∀ y, P y → f x = f y → g x = g y)
    (hys : ∀ y ∈ ys, P y) (heq : xs.map f = ys.map f) : xs.map g = ys.map g := by
  -- The lists have the same length, because what has been made of them has.
  induction xs generalizing ys with
  | nil =>
    cases ys with
    | nil => rfl
    | cons y ys => cases heq
  | cons x xs ih =>
    cases ys with
    | nil => cases heq
    | cons y ys =>
      obtain ⟨hx, hxs⟩ := List.forall_mem_cons.mp h
      obtain ⟨hy, hys⟩ := List.forall_mem_cons.mp hys
      obtain ⟨hfirst, hrest⟩ := List.cons.inj heq
      rw [List.map_cons, List.map_cons, hx y hy hfirst, ih hxs hys hrest]

/-- The same for something that may be left out. -/
theorem option_determined {x y : Option α} (h : ∀ a ∈ x, ∀ b, P b → f a = f b → g a = g b)
    (hy : ∀ b ∈ y, P b) (heq : x.map f = y.map f) : x.map g = y.map g := by
  cases x with
  | none =>
    cases y with
    | none => rfl
    | some b => cases heq
  | some a =>
    cases y with
    | none => cases heq
    | some b => exact congrArg some (h a rfl b (hy b rfl) (Option.some.inj heq))

/-- What may be left out has one outline or none. -/
theorem map_of_toList {x y : Option α} (h : x.toList.map f = y.toList.map f) : x.map f = y.map f := by
  cases x with
  | none =>
    cases y with
    | none => rfl
    | some b => cases h
  | some a =>
    cases y with
    | none => cases h
    | some b => exact congrArg some (List.cons.inj h).1

end

/-- Nodes with the same outline have the same parts. -/
theorem Expr.parts {e e' : Expr} (h : e.outline = e'.outline) :
    e.word = e'.word ∧ e.detail? = e'.detail? ∧ e.children = e'.children := by
  rw [outline_eq, outline_eq] at h
  exact node_labelText_inj e.isWord_word e'.isWord_word h

/-- Statements with the same outline agree in word, detail and children. -/
theorem Stmt.parts {s s' : Stmt} (h : s.outline = s'.outline) :
    s.word = s'.word ∧ s.detail? = s'.detail? ∧ s.children = s'.children := by
  rw [outline_eq, outline_eq] at h
  exact node_labelText_inj s.isWord_word s'.isWord_word h

/-- Functions with the same outline agree in signature and body. -/
theorem FunctionDecl.parts {d d' : FunctionDecl} (h : d.outline "Method " = d'.outline "Method ") :
    signatureText d.name d.params = signatureText d'.name d'.params ∧
      Stmt.outlines d.body = Stmt.outlines d'.body := by
  have hword : isWord "Method" = true := by decide
  rw [method_eq, method_eq] at h
  obtain ⟨-, hdetail, hchildren⟩ := node_labelText_inj hword hword h
  exact ⟨Option.some.inj hdetail, hchildren⟩

/-- Names with the same text are the same. -/
theorem Token.Is.bare_eq {t t' : Token} (h : t.Is .identifier) (h' : t'.Is .identifier)
    (heq : t.lexeme = t'.lexeme) : t.bare = t'.bare :=
  bare_of_lexeme h.legal h'.legal heq

/-- The outline of the phrase, with the signature for a function, determines it. -/
def Phrase.Determined : Phrase → Prop
  | .expr e => ∀ e', Worded OneLine (.expr e') → e.outline = e'.outline → e.bare = e'.bare
  | .stmt s => ∀ s', Worded OneLine (.stmt s') → s.outline = s'.outline → s.bare = s'.bare
  | .function _ d => ∀ d', Worded OneLine (.function .function d') →
    signatureText d.name d.params = signatureText d'.name d'.params →
      Stmt.outlines d.body = Stmt.outlines d'.body → d.bare = d'.bare
  | .exprs _ | .stmts _ | .methods _ => True

/-- Statements with the same outlines are the same. -/
theorem bareStmts_of_outlines {ss ss' : List Stmt} (h : ∀ s ∈ ss, Phrase.Determined (.stmt s))
    (h' : ∀ s ∈ ss', Worded OneLine (.stmt s)) (heq : Stmt.outlines ss = Stmt.outlines ss') :
    bareStmts ss = bareStmts ss' := by
  rw [Stmt.outlines_eq, Stmt.outlines_eq] at heq
  rw [bareStmts_eq, bareStmts_eq]
  exact map_determined h h' heq

/-- Expressions that may be left out are the same if their outlines are. -/
theorem bareOptional_of_outlines {e e' : Option Expr} (h : ∀ v ∈ e, Phrase.Determined (.expr v))
    (h' : ∀ v ∈ e', Worded OneLine (.expr v)) (heq : Expr.optionalOutline e = Expr.optionalOutline e') :
    bareOptional e = bareOptional e' := by
  rw [Expr.optionalOutline_eq, Expr.optionalOutline_eq] at heq
  rw [bareOptional_eq, bareOptional_eq]
  exact option_determined h h' (map_of_toList heq)

/-! ## Nodes

  A lemma for each kind of node, with what is known of its parts as hypotheses.  Each goes the same way:
  the words of the two nodes are the same, so the nodes are of one kind; the details give the tokens, and
  the children, one by one, give the parts. -/

namespace Phrase.Determined

-- The words tell a node from those of other kinds, which is all there is to say of the latter.
attribute [local simp] Expr.word Stmt.word Expr.bare Stmt.bare FunctionDecl.bare

/-! ### Constants, names and keywords -/

/-- A constant is told from its text. -/
theorem literal {l : Literal} (hl : l.Writable OneLine) : Determined (.expr (.literal l)) := by
  intro e' h' heq
  obtain ⟨hword, hdetail, -⟩ := Expr.parts heq
  cases h' with
  | literal hl' => rw [Literal.outlineText_inj hl hl' (Option.some.inj hdetail)]
  | _ => simp at hword

/-- A variable is told from its name. -/
theorem name {ref : Ref} (hn : ref.name.Is .identifier) : Determined (.expr (.variable ref)) := by
  intro e' h' heq
  obtain ⟨hword, hdetail, -⟩ := Expr.parts heq
  cases h' with
  | name hn' => simp only [Expr.bare, Ref.bare_inj (hn.bare_eq hn' (Option.some.inj hdetail))]
  | _ => simp at hword

/-- All uses of `this` look alike, and are alike. -/
theorem this {ref : Ref} (hk : ref.name.Is (.keyword .thisKw)) : Determined (.expr (.this ref)) := by
  intro e' h' heq
  obtain ⟨hword, -, -⟩ := Expr.parts heq
  cases h' with
  | this hk' => simp only [Expr.bare, Ref.bare, hk.keyword, hk'.keyword]
  | _ => simp at hword

/-- A use of `super` is told from the name of its method. -/
theorem super {ref : Ref} {method : Token} (hk : ref.name.Is (.keyword .superKw))
    (hm : method.Is .identifier) : Determined (.expr (.super ref method)) := by
  intro e' h' heq
  obtain ⟨hword, hdetail, -⟩ := Expr.parts heq
  cases h' with
  | super hk' hm' =>
    simp only [Expr.bare, Ref.bare, hk.keyword, hk'.keyword, hm.bare_eq hm' (Option.some.inj hdetail)]
  | _ => simp at hword

/-! ### Operators -/

/-- What is in parentheses is told from the one child. -/
theorem grouping {e : Expr} (he : Determined (.expr e)) : Determined (.expr (.grouping e)) := by
  intro e' h' heq
  obtain ⟨hword, -, hchildren⟩ := Expr.parts heq
  cases h' with
  | grouping he' =>
    obtain ⟨hinner, -⟩ := List.cons.inj hchildren
    simp only [Expr.bare, he _ he' hinner]
  | _ => simp at hword

/-- The operator is in the label, the operand below. -/
theorem unary {op : Token} {e : Expr} (ho : op.NoConstant) (he : Determined (.expr e)) :
    Determined (.expr (.unary op e)) := by
  intro e' h' heq
  obtain ⟨hword, hdetail, hchildren⟩ := Expr.parts heq
  cases h' with
  | unary ho' he' =>
    obtain ⟨hright, -⟩ := List.cons.inj hchildren
    simp only [Expr.bare, he _ he' hright, bare_of_lexeme ho.legal ho'.legal (Option.some.inj hdetail)]
  | _ => simp at hword

/-- The operator is in the label, the operands below. -/
theorem binary {l r : Expr} {op : Token} (hl : Determined (.expr l)) (ho : op.NoConstant)
    (hr : Determined (.expr r)) : Determined (.expr (.binary l op r)) := by
  intro e' h' heq
  obtain ⟨hword, hdetail, hchildren⟩ := Expr.parts heq
  cases h' with
  | binary hl' ho' hr' =>
    obtain ⟨hleft, hrest⟩ := List.cons.inj hchildren
    obtain ⟨hright, -⟩ := List.cons.inj hrest
    simp only [Expr.bare, hl _ hl' hleft, hr _ hr' hright,
      bare_of_lexeme ho.legal ho'.legal (Option.some.inj hdetail)]
  | _ => simp at hword

theorem logical {l r : Expr} {op : Token} (hl : Determined (.expr l)) (ho : op.NoConstant)
    (hr : Determined (.expr r)) : Determined (.expr (.logical l op r)) := by
  intro e' h' heq
  obtain ⟨hword, hdetail, hchildren⟩ := Expr.parts heq
  cases h' with
  | logical hl' ho' hr' =>
    obtain ⟨hleft, hrest⟩ := List.cons.inj hchildren
    obtain ⟨hright, -⟩ := List.cons.inj hrest
    simp only [Expr.bare, hl _ hl' hleft, hr _ hr' hright,
      bare_of_lexeme ho.legal ho'.legal (Option.some.inj hdetail)]
  | _ => simp at hword

/-- The three values are the children. -/
theorem ternary {c t e : Expr} (hc : Determined (.expr c)) (ht : Determined (.expr t))
    (he : Determined (.expr e)) : Determined (.expr (.ternary c t e)) := by
  intro e' h' heq
  obtain ⟨hword, -, hchildren⟩ := Expr.parts heq
  cases h' with
  | ternary hc' ht' he' =>
    obtain ⟨hcondition, hrest⟩ := List.cons.inj hchildren
    obtain ⟨hthen, hrest⟩ := List.cons.inj hrest
    obtain ⟨helse, -⟩ := List.cons.inj hrest
    simp only [Expr.bare, hc _ hc' hcondition, ht _ ht' hthen, he _ he' helse]
  | _ => simp at hword

/-! ### Assignments, calls and properties -/

/-- The name is in the label, the value below. -/
theorem assign {ref : Ref} {e : Expr} (hn : ref.name.Is .identifier) (he : Determined (.expr e)) :
    Determined (.expr (.assign ref e)) := by
  intro e' h' heq
  obtain ⟨hword, hdetail, hchildren⟩ := Expr.parts heq
  cases h' with
  | assign hn' he' =>
    obtain ⟨hvalue, -⟩ := List.cons.inj hchildren
    simp only [Expr.bare, Ref.bare_inj (hn.bare_eq hn' (Option.some.inj hdetail)), he _ he' hvalue]
  | _ => simp at hword

/-- The parenthesis is not printed, but there is only one that a call can have. -/
theorem call {c : Expr} {paren : Token} {es : List Expr} (hc : Determined (.expr c))
    (hp : paren.Is (.mark .rightParen)) (hes : ∀ e ∈ es, Determined (.expr e)) :
    Determined (.expr (.call c paren es)) := by
  intro e' h' heq
  obtain ⟨hword, -, hchildren⟩ := Expr.parts heq
  cases h' with
  | call hc' hp' hes' =>
    obtain ⟨hcallee, harguments⟩ := List.cons.inj hchildren
    rw [Expr.outlines_eq, Expr.outlines_eq] at harguments
    simp only [Expr.bare, hc _ hc' hcallee, hp.mark, hp'.mark, bareExprs_eq,
      map_determined hes hes' harguments]
  | _ => simp at hword

/-- The property is in the label, the object below. -/
theorem get {o : Expr} {name : Token} (ho : Determined (.expr o)) (hn : name.Is .identifier) :
    Determined (.expr (.get o name)) := by
  intro e' h' heq
  obtain ⟨hword, hdetail, hchildren⟩ := Expr.parts heq
  cases h' with
  | get ho' hn' =>
    obtain ⟨hobject, -⟩ := List.cons.inj hchildren
    simp only [Expr.bare, ho _ ho' hobject, hn.bare_eq hn' (Option.some.inj hdetail)]
  | _ => simp at hword

/-- The property is in the label, object and value below. -/
theorem set {o e : Expr} {name : Token} (ho : Determined (.expr o)) (hn : name.Is .identifier)
    (he : Determined (.expr e)) : Determined (.expr (.set o name e)) := by
  intro e' h' heq
  obtain ⟨hword, hdetail, hchildren⟩ := Expr.parts heq
  cases h' with
  | set ho' hn' he' =>
    obtain ⟨hobject, hrest⟩ := List.cons.inj hchildren
    obtain ⟨hvalue, -⟩ := List.cons.inj hrest
    simp only [Expr.bare, ho _ ho' hobject, he _ he' hvalue, hn.bare_eq hn' (Option.some.inj hdetail)]
  | _ => simp at hword

theorem lambda {d : FunctionDecl} (hd : Determined (.function .function d)) :
    Determined (.expr (.lambda d)) := by
  intro e' h' heq
  obtain ⟨hword, hdetail, hchildren⟩ := Expr.parts heq
  cases h' with
  | lambda hd' => simp only [Expr.bare, hd _ hd' (Option.some.inj hdetail) hchildren]
  | _ => simp at hword

/-! ### Statements -/

theorem expression {e : Expr} (he : Determined (.expr e)) : Determined (.stmt (.expression e)) := by
  intro s' h' heq
  obtain ⟨hword, -, hchildren⟩ := Stmt.parts heq
  cases h' with
  | expression he' =>
    obtain ⟨hvalue, -⟩ := List.cons.inj hchildren
    simp only [Stmt.bare, he _ he' hvalue]
  | _ => simp at hword

theorem value {e : Expr} (he : Determined (.expr e)) : Determined (.stmt (.value e)) := by
  intro s' h' heq
  obtain ⟨hword, -, hchildren⟩ := Stmt.parts heq
  cases h' with
  | value he' =>
    obtain ⟨hvalue, -⟩ := List.cons.inj hchildren
    simp only [Stmt.bare, he _ he' hvalue]
  | _ => simp at hword

/-- The name is in the label; whether there is a value is told from whether there is a child. -/
theorem varDecl {name : Token} {initializer : Option Expr} (hn : name.Is .identifier)
    (he : ∀ e ∈ initializer, Determined (.expr e)) : Determined (.stmt (.varDecl name initializer)) := by
  intro s' h' heq
  obtain ⟨hword, hdetail, hchildren⟩ := Stmt.parts heq
  cases h' with
  | varDecl hn' he' =>
    simp only [Stmt.bare, hn.bare_eq hn' (Option.some.inj hdetail),
      bareOptional_of_outlines he he' hchildren]
  | _ => simp at hword

/-- The statements are the children. -/
theorem block {ss : List Stmt} (hss : ∀ s ∈ ss, Determined (.stmt s)) : Determined (.stmt (.block ss)) := by
  intro s' h' heq
  obtain ⟨hword, -, hchildren⟩ := Stmt.parts heq
  cases h' with
  | block hss' => simp only [Stmt.bare, bareStmts_of_outlines hss hss' hchildren]
  | _ => simp at hword

/-- With an alternative there is a third child, and without one there is none. -/
theorem ifElse {c : Expr} {t : Stmt} {e : Option Stmt} (hc : Determined (.expr c)) (ht : Determined (.stmt t))
    (he : ∀ s ∈ e, Determined (.stmt s)) : Determined (.stmt (.ifElse c t e)) := by
  intro s' h' heq
  obtain ⟨hword, -, hchildren⟩ := Stmt.parts heq
  cases h' with
  | ifElse hc' ht' he' =>
    obtain ⟨hcondition, hrest⟩ := List.cons.inj hchildren
    obtain ⟨hthen, helse⟩ := List.cons.inj hrest
    rw [Stmt.optionalOutline_eq, Stmt.optionalOutline_eq] at helse
    simp only [Stmt.bare, hc _ hc' hcondition, ht _ ht' hthen, bareElse_eq,
      option_determined he he' (map_of_toList helse)]
  | _ => simp at hword

theorem whileLoop {c : Expr} {b : Stmt} (hc : Determined (.expr c)) (hb : Determined (.stmt b)) :
    Determined (.stmt (.whileLoop c b)) := by
  intro s' h' heq
  obtain ⟨hword, -, hchildren⟩ := Stmt.parts heq
  cases h' with
  | whileLoop hc' hb' =>
    obtain ⟨hcondition, hrest⟩ := List.cons.inj hchildren
    obtain ⟨hbody, -⟩ := List.cons.inj hrest
    simp only [Stmt.bare, hc _ hc' hcondition, hb _ hb' hbody]
  | _ => simp at hword

theorem breakLoop {keyword : Token} (hk : keyword.Is (.keyword .breakKw)) :
    Determined (.stmt (.breakLoop keyword)) := by
  intro s' h' heq
  obtain ⟨hword, -, -⟩ := Stmt.parts heq
  cases h' with
  | breakLoop hk' => simp only [Stmt.bare, hk.keyword, hk'.keyword]
  | _ => simp at hword

/-- Whether there is a value is told from whether there is a child. -/
theorem returnValue {keyword : Token} {value : Option Expr} (hk : keyword.Is (.keyword .returnKw))
    (he : ∀ e ∈ value, Determined (.expr e)) : Determined (.stmt (.returnValue keyword value)) := by
  intro s' h' heq
  obtain ⟨hword, -, hchildren⟩ := Stmt.parts heq
  cases h' with
  | returnValue hk' he' =>
    simp only [Stmt.bare, hk.keyword, hk'.keyword, bareOptional_of_outlines he he' hchildren]
  | _ => simp at hword

/-! ### Functions and classes -/

/-- The name and the parameters are told from the signature, the statements of the body are the children. -/
theorem function {name : Option Token} {keyword : Token} {params : List Token} {body : List Stmt}
    (hname : ∀ t ∈ name, t.Is .identifier) (hk : keyword.Is (.keyword .funcKw))
    (hparams : ∀ t ∈ params, t.Is .identifier) (hbody : ∀ s ∈ body, Determined (.stmt s)) :
    Determined (.function .function (.mk name keyword params body)) := by
  intro d' h' hsignature houtlines
  cases h' with
  | function hname' hk' hparams' hbody' =>
    obtain ⟨hnames, hps⟩ := signatureText_inj hname hname' hparams hparams' hsignature
    have hshow := option_determined (fun t ht t' ht' => (hname t ht).bare_eq ht') hname' hnames
    have hparameters := map_determined (fun t ht t' ht' => (hparams t ht).bare_eq ht') hparams' hps
    simp only [FunctionDecl.bare, hshow, hparameters, hk.keyword, hk'.keyword,
      bareStmts_of_outlines hbody hbody' houtlines]

theorem funcDecl {d : FunctionDecl} (hd : Determined (.function .function d)) :
    Determined (.stmt (.funcDecl d)) := by
  intro s' h' heq
  obtain ⟨hword, hdetail, hchildren⟩ := Stmt.parts heq
  cases h' with
  | funcDecl hd' => simp only [Stmt.bare, hd _ hd' (Option.some.inj hdetail) hchildren]
  | _ => simp at hword

/-- The label of a class falls apart into its name and that of its superclass. -/
theorem classDecl {name : Token} {superclass : Option Ref} {ds : List FunctionDecl}
    (hn : name.Is .identifier) (hsuper : ∀ ref : Ref, ref ∈ superclass → ref.name.Is .identifier)
    (hds : ∀ d ∈ ds, Determined (.function .function d)) :
    Determined (.stmt (.classDecl name superclass ds)) := by
  intro s' h' heq
  obtain ⟨hword, hdetail, hchildren⟩ := Stmt.parts heq
  cases h' with
  | classDecl hn' hsuper' hds' =>
    obtain ⟨hname, href⟩ := classLabel_inj hn hn' (Option.some.inj hdetail)
    have hrefs := option_determined
      (fun r hr r' hr' hlexeme => Ref.bare_inj ((hsuper r hr).bare_eq hr' hlexeme)) hsuper' href
    rw [Stmt.children, Stmt.children, FunctionDecl.outlines_eq, FunctionDecl.outlines_eq] at hchildren
    have hmethods := map_determined
      (fun d hd d' hd' houtline => hds d hd d' hd' (FunctionDecl.parts houtline).1
        (FunctionDecl.parts houtline).2) hds' hchildren
    simp only [Stmt.bare, hn.bare_eq hn' hname, hrefs, bareMethods_eq, hmethods]
  | _ => simp at hword

end Phrase.Determined

/-- **What is worded is determined by its outline.**  By induction on what is worded, a lemma for each kind
    of node. -/
theorem determined_of_worded {p : Phrase} (h : Worded OneLine p) : p.Determined := by
  induction h with
  | literal hl => exact Phrase.Determined.literal hl
  | grouping _ ih => exact Phrase.Determined.grouping ih
  | unary ho _ ih => exact Phrase.Determined.unary ho ih
  | binary _ ho _ ihl ihr => exact Phrase.Determined.binary ihl ho ihr
  | logical _ ho _ ihl ihr => exact Phrase.Determined.logical ihl ho ihr
  | ternary _ _ _ ihc iht ihe => exact Phrase.Determined.ternary ihc iht ihe
  | name hn => exact Phrase.Determined.name hn
  | assign hn _ ih => exact Phrase.Determined.assign hn ih
  | call _ hp _ ihc ihes => exact Phrase.Determined.call ihc hp ihes
  | get _ hn ih => exact Phrase.Determined.get ih hn
  | set _ hn _ iho ihe => exact Phrase.Determined.set iho hn ihe
  | lambda _ ih => exact Phrase.Determined.lambda ih
  | this hk => exact Phrase.Determined.this hk
  | super hk hm => exact Phrase.Determined.super hk hm
  | expression _ ih => exact Phrase.Determined.expression ih
  | value _ ih => exact Phrase.Determined.value ih
  | varDecl hn _ ih => exact Phrase.Determined.varDecl hn ih
  | block _ ih => exact Phrase.Determined.block ih
  | ifElse _ _ _ ihc iht ihe => exact Phrase.Determined.ifElse ihc iht ihe
  | whileLoop _ _ ihc ihb => exact Phrase.Determined.whileLoop ihc ihb
  | breakLoop hk => exact Phrase.Determined.breakLoop hk
  | funcDecl _ ih => exact Phrase.Determined.funcDecl ih
  | classDecl hn hsuper _ ih => exact Phrase.Determined.classDecl hn hsuper ih
  | returnValue hk _ ih => exact Phrase.Determined.returnValue hk ih
  | function hname hk hparams _ ih => exact Phrase.Determined.function hname hk hparams ih

/-! ## Programs -/

/-- No string literal of the source stands for a text with a newline. -/
def OneLineStrings (source : String) : Prop :=
  ∀ t ∈ tokensOf (items source), ∀ s, t.kind = .string s → OneLine s

/-- Whether a kind of tokens is other than that of a string with a newline. -/
def TokenKind.isOneLine : TokenKind → Bool
  | .string s => decide (OneLine s)
  | _ => true

/-- Whether a kind holds a string with a newline can be decided. -/
theorem TokenKind.isOneLine_iff {kind : TokenKind} :
    kind.isOneLine = true ↔ ∀ s, kind = .string s → OneLine s := by
  cases kind <;> simp [isOneLine]

instance (source : String) : Decidable (OneLineStrings source) :=
  decidable_of_iff (∀ t ∈ tokensOf (items source), t.kind.isOneLine = true)
    (forall₂_congr fun _ _ => TokenKind.isOneLine_iff)

/-- The labels of a program that can be read are clean. -/
theorem clean_program {ss : List Stmt} (h : ∀ s ∈ ss, Worded OneLine (.stmt s)) :
    Outline.CleanAll (Stmt.outlines ss) := by
  rw [Stmt.outlines_eq]
  exact Outline.cleanAll_map fun s hs => clean_of_worded (h s hs)

/-- **The printout determines the program.**  Two sources that are parsed without a report, neither of them
    with a string that holds a newline, and whose programs are printed alike have the same program, but for
    the numbers of the occurrences of names and the lines of the tokens. -/
theorem printout_determines_program {source source' : String} {interactive interactive' : Bool}
    {firstId firstId' : Nat}
    (h : (Grammar.parse (tokensOf (items source)) interactive firstId).diagnostics = [])
    (h' : (Grammar.parse (tokensOf (items source')) interactive' firstId').diagnostics = [])
    (hlines : OneLineStrings source) (hlines' : OneLineStrings source')
    (heq : outlineText (Grammar.parse (tokensOf (items source)) interactive firstId).program =
      outlineText (Grammar.parse (tokensOf (items source')) interactive' firstId').program) :
    bareStmts (Grammar.parse (tokensOf (items source)) interactive firstId).program =
      bareStmts (Grammar.parse (tokensOf (items source')) interactive' firstId').program := by
  -- Both programs have been read, so that their trees are worded; the drawings are read back as outlines.
  have hworded := worded_of_parse h hlines
  have hworded' := worded_of_parse h' hlines'
  have houtlines := Outline.forest_of_text (clean_program hworded) (clean_program hworded') heq
  exact bareStmts_of_outlines (fun s hs => determined_of_worded (hworded s hs)) hworded' houtlines

/-- A counting loop. -/
def countedSource : String := "for var i = 0; i < 3; i = i + 1 \x7b print(\"i\", i); \x7d"

/-- The same loop as it is written without one, on more lines. -/
def spelledSource : String :=
  "\x7b\nvar i = 0;\nwhile i < 3 \x7b \x7b print(\"i\", i); \x7d\ni = i + 1; \x7d \x7d"

/-- A counting loop and the loop spelled out are printed alike, and are the same program. -/
theorem printout_determines_program_loop :
    let counted := Grammar.parse (tokensOf (items countedSource)) false 0
    let spelled := Grammar.parse (tokensOf (items spelledSource)) true 9
    counted.diagnostics = [] ∧ spelled.diagnostics = [] ∧
      outlineText counted.program = outlineText spelled.program ∧
      bareStmts counted.program = bareStmts spelled.program := by
  have hcounted : (Grammar.parse (tokensOf (items countedSource)) false 0).diagnostics = [] :=
    List.isEmpty_iff.mp (by decide +kernel)
  have hspelled : (Grammar.parse (tokensOf (items spelledSource)) true 9).diagnostics = [] :=
    List.isEmpty_iff.mp (by decide +kernel)
  have htexts : outlineText (Grammar.parse (tokensOf (items countedSource)) false 0).program =
      outlineText (Grammar.parse (tokensOf (items spelledSource)) true 9).program := by decide +kernel
  exact ⟨hcounted, hspelled, htexts,
    printout_determines_program hcounted hspelled (by decide +kernel) (by decide +kernel) htexts⟩

end Lox
