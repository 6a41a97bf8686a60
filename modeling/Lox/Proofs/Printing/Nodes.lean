import Lox.Proofs.Printing.Labels

/-!
  The nodes of an outline.

  Every node is made alike: a label, which is a word for what the node is with a detail behind it, and the
  outlines of the parts.  The functions of the model have one equation for each constructor; here they get one
  form for all (`Expr.outline_eq`, `Stmt.outline_eq`), with the word, the detail and the children as functions
  of the tree.

  * The word has letters only, and the detail is behind a space; so a label has only one of each
    (`labelText_inj`).
  * A word begins with a capital letter, and the labels of a program that has been read have no newline: they
    are clean (`clean_of_worded`).  This is what the drawing of an outline asks for to be read back.

  Lists of outlines are written as `map`, so that lemmas about lists apply (`Stmt.outlines_eq` and its like).
-/

namespace Lox

/-! ## Outlines of lists -/

/-- Expressions one by one. -/
theorem Expr.outlines_eq (es : List Expr) : Expr.outlines es = es.map Expr.outline := by
  induction es with
  | nil => rfl
  | cons e es ih => exact congrArg (e.outline :: ·) ih

theorem Expr.optionalOutline_eq (e : Option Expr) : Expr.optionalOutline e = e.toList.map Expr.outline := by
  cases e <;> rfl

/-- Statements one by one. -/
theorem Stmt.outlines_eq (ss : List Stmt) : Stmt.outlines ss = ss.map Stmt.outline := by
  induction ss with
  | nil => rfl
  | cons s ss ih => exact congrArg (s.outline :: ·) ih

theorem Stmt.optionalOutline_eq (s : Option Stmt) : Stmt.optionalOutline s = s.toList.map Stmt.outline := by
  cases s <;> rfl

/-- Methods one by one. -/
theorem FunctionDecl.outlines_eq (ds : List FunctionDecl) :
    FunctionDecl.outlines ds = ds.map (FunctionDecl.outline "Method ") := by
  induction ds with
  | nil => rfl
  | cons d ds ih => exact congrArg (d.outline "Method " :: ·) ih

/-! ## The parts of a node

  A label is a word and perhaps a detail; the word tells the kind of phrase. -/

/-- The word for an expression. -/
def Expr.word : Expr → String
  | .literal _ => "Literal"
  | .grouping _ => "Grouping"
  | .unary _ _ => "Unary"
  | .binary _ _ _ => "Binary"
  | .logical _ _ _ => "Logical"
  | .ternary _ _ _ => "Ternary"
  | .variable _ => "Variable"
  | .assign _ _ => "Assign"
  | .call _ _ _ => "Call"
  | .get _ _ => "Get"
  | .set _ _ _ => "Set"
  | .lambda _ => "Lambda"
  | .this _ => "This"
  | .super _ _ => "Super"

/-- What the label of an expression says behind the word and a space. -/
def Expr.detail? : Expr → Option String
  | .literal l => some l.outlineText
  | .grouping _ | .ternary _ _ _ | .call _ _ _ | .this _ => none
  | .unary op _ | .binary _ op _ | .logical _ op _ => some op.lexeme
  | .variable ref | .assign ref _ => some ref.name.lexeme
  | .get _ name | .set _ name _ | .super _ name => some name.lexeme
  | .lambda d => some (signatureText d.name d.params)

/-- The outlines below an expression. -/
def Expr.children : Expr → List Outline
  | .literal _ | .variable _ | .this _ | .super _ _ => []
  | .grouping e | .unary _ e | .assign _ e | .get e _ => [e.outline]
  | .binary l _ r | .logical l _ r | .set l _ r => [l.outline, r.outline]
  | .ternary c t e => [c.outline, t.outline, e.outline]
  | .call c _ es => c.outline :: Expr.outlines es
  | .lambda d => Stmt.outlines d.body

/-- The word for a statement. -/
def Stmt.word : Stmt → String
  | .expression _ => "ExpressionStatement"
  | .value _ => "Value"
  | .varDecl _ _ => "Var"
  | .block _ => "Block"
  | .ifElse _ _ _ => "If"
  | .whileLoop _ _ => "While"
  | .breakLoop _ => "Break"
  | .funcDecl _ => "Function"
  | .classDecl _ _ _ => "Class"
  | .returnValue _ _ => "Return"

/-- What the label of a statement says behind the word and a space. -/
def Stmt.detail? : Stmt → Option String
  | .varDecl name _ => some name.lexeme
  | .funcDecl d => some (signatureText d.name d.params)
  | .classDecl name ref _ => some (classLabel name ref)
  | .expression _ | .value _ | .block _ | .ifElse _ _ _ | .whileLoop _ _ | .breakLoop _ | .returnValue _ _ =>
    none

/-- The outlines below a statement. -/
def Stmt.children : Stmt → List Outline
  | .expression e | .value e => [e.outline]
  | .varDecl _ e | .returnValue _ e => Expr.optionalOutline e
  | .block ss => Stmt.outlines ss
  | .ifElse c t e => c.outline :: t.outline :: Stmt.optionalOutline e
  | .whileLoop c b => [c.outline, b.outline]
  | .breakLoop _ => []
  | .funcDecl d => Stmt.outlines d.body
  | .classDecl _ _ ds => FunctionDecl.outlines ds

/-- A label: a word, and behind a space what more there is to say. -/
def labelText (word : String) (detail : Option String) : String := word ++ detail.elim "" (" " ++ ·)

theorem labelText_none (word : String) : labelText word none = word := String.append_empty

theorem labelText_some (word detail : String) : labelText word (some detail) = word ++ " " ++ detail :=
  String.append_assoc.symm

/-- A function has the word that it is given, its signature, and the statements of its body. -/
theorem FunctionDecl.outline_eq (word : String) (d : FunctionDecl) : d.outline (word ++ " ") =
    .node (labelText word (some (signatureText d.name d.params))) (Stmt.outlines d.body) := by
  obtain ⟨name, keyword, params, body⟩ := d
  rw [outline, labelText_some]
  rfl

theorem FunctionDecl.method_eq (d : FunctionDecl) : d.outline "Method " =
    .node (labelText "Method" (some (signatureText d.name d.params))) (Stmt.outlines d.body) :=
  d.outline_eq "Method"

/-- The form of all expressions. -/
theorem Expr.outline_eq (e : Expr) : e.outline = .node (labelText e.word e.detail?) e.children := by
  cases e with
  | grouping _ | ternary _ _ _ | call _ _ _ | this _ =>
    rw [word, detail?, labelText_none]
    rfl
  | lambda d => exact d.outline_eq "Lambda"
  | _ =>
    rw [word, detail?, labelText_some]
    rfl

/-- The form of all statements. -/
theorem Stmt.outline_eq (s : Stmt) : s.outline = .node (labelText s.word s.detail?) s.children := by
  cases s with
  | funcDecl d => exact d.outline_eq "Function"
  | varDecl _ _ | classDecl _ _ _ =>
    rw [word, detail?, labelText_some]
    rfl
  | _ =>
    rw [word, detail?, labelText_none]
    rfl

/-- Whether a text is a word: letters, the first of them a capital one. -/
def isWord (s : String) : Bool := s.toList.head?.any Char.isUpper && s.toList.all Char.isAlpha

theorem Expr.isWord_word (e : Expr) : isWord e.word = true := by
  cases e <;> simp only [word] <;> decide

theorem Stmt.isWord_word (s : Stmt) : isWord s.word = true := by
  cases s <;> simp only [word] <;> decide

/-- A word begins with a capital letter. -/
theorem capital_of_isWord {word : String} (h : isWord word = true) :
    ∃ c rest, word.toList = c :: rest ∧ c.isUpper = true := by
  rw [isWord, Bool.and_eq_true] at h
  cases hword : word.toList with
  | nil =>
    rw [hword] at h
    cases h.1
  | cons c rest =>
    rw [hword] at h
    exact ⟨c, rest, rfl, h.1⟩

/-- A word has letters only. -/
theorem letters_of_isWord {word : String} (h : isWord word = true) :
    ∀ c ∈ word.toList, c.isAlpha = true := by
  rw [isWord, Bool.and_eq_true] at h
  exact List.all_eq_true.mp h.2

/-- The word of a label ends where its letters end. -/
theorem span_labelText {word : String} (h : isWord word = true) (detail : Option String) :
    (labelText word detail).toList.takeWhile Char.isAlpha = word.toList ∧
      (labelText word detail).toList.dropWhile Char.isAlpha = (detail.elim "" (" " ++ ·)).toList := by
  rw [labelText, String.toList_append]
  -- The word ends at the space, or at the end of the label.
  refine span_stop (letters_of_isWord h) ?_
  cases detail with
  | none => exact nofun
  | some s =>
    intro c hc
    rw [Option.elim, String.toList_append] at hc
    cases hc
    rfl

/-- **A label has one word and one detail.** -/
theorem labelText_inj {word word' : String} {detail detail' : Option String} (h : isWord word = true)
    (h' : isWord word' = true) (heq : labelText word detail = labelText word' detail') :
    word = word' ∧ detail = detail' := by
  obtain ⟨hword, hdetail⟩ := span_labelText h detail
  obtain ⟨hword', hdetail'⟩ := span_labelText h' detail'
  rw [heq] at hword hdetail
  refine ⟨String.toList_injective (hword.symm.trans hword'), ?_⟩
  have hrest := hdetail.symm.trans hdetail'
  cases detail with
  | none =>
    cases detail' with
    | none => rfl
    | some s' => simp at hrest
  | some s =>
    cases detail' with
    | none => simp at hrest
    | some s' =>
      simp only [Option.elim, String.toList_append] at hrest
      rw [String.toList_injective (List.append_cancel_left hrest)]

/-- **A node has one word, one detail and one list of children.** -/
theorem node_labelText_inj {word word' : String} {detail detail' : Option String} {os os' : List Outline}
    (h : isWord word = true) (h' : isWord word' = true)
    (heq : Outline.node (labelText word detail) os = .node (labelText word' detail') os') :
    word = word' ∧ detail = detail' ∧ os = os' := by
  obtain ⟨hlabel, hchildren⟩ := Outline.node.inj heq
  obtain ⟨hword, hdetail⟩ := labelText_inj h h' hlabel
  exact ⟨hword, hdetail, hchildren⟩

/-! ## Clean labels

  A label must stay on its line for the drawing to be read back.  Only a string with a newline could break it. -/

/-- A label is clean if its detail is on one line. -/
theorem cleanLabel {word : String} {detail : Option String} (h : isWord word = true)
    (hdetail : ∀ s ∈ detail, OneLine s) : CleanLabel (labelText word detail) := by
  rw [labelText]
  constructor
  · obtain ⟨c, rest, hword, hc⟩ := capital_of_isWord h
    exact ⟨c, rest ++ (detail.elim "" (" " ++ ·)).toList, by rw [String.toList_append, hword]; rfl, hc⟩
  · refine oneLine_append.mpr ⟨fun hmem => absurd (letters_of_isWord h _ hmem) (by decide), ?_⟩
    cases detail with
    | none => decide
    | some s => exact oneLine_append.mpr ⟨by decide, hdetail s rfl⟩

/-- Outlines are clean if each of them is. -/
theorem Outline.cleanAll_map {α : Type} {f : α → Outline} {xs : List α} (h : ∀ x ∈ xs, (f x).Clean) :
    CleanAll (xs.map f) := by
  induction xs with
  | nil => exact trivial
  | cons x xs ih =>
    obtain ⟨hx, hxs⟩ := List.forall_mem_cons.mp h
    exact ⟨hx, ih hxs⟩

/-- The same for something that may be left out. -/
theorem Outline.cleanAll_toList {α : Type} {f : α → Outline} {x : Option α}
    (h : ∀ y ∈ x, (f y).Clean) : CleanAll (x.toList.map f) :=
  cleanAll_map fun y hy => h y (Option.mem_toList.mp hy)

/-- An expression with a detail on one line and clean children. -/
theorem Expr.clean {e : Expr} (h : ∀ s ∈ e.detail?, OneLine s) (hc : Outline.CleanAll e.children) :
    e.outline.Clean := by
  rw [outline_eq]
  exact ⟨cleanLabel e.isWord_word h, hc⟩

/-- A statement with a detail on one line and clean children. -/
theorem Stmt.clean {s : Stmt} (h : ∀ t ∈ s.detail?, OneLine t) (hc : Outline.CleanAll s.children) :
    s.outline.Clean := by
  rw [outline_eq]
  exact ⟨cleanLabel s.isWord_word h, hc⟩

/-- The outline of the phrase has clean labels only.  A function has an outline of its own only where it
    stands; its signature is on one line, and the outlines of its body are clean. -/
def Phrase.Clean : Phrase → Prop
  | .expr e => e.outline.Clean
  | .stmt s => s.outline.Clean
  | .function _ d => OneLine (signatureText d.name d.params) ∧ Outline.CleanAll (Stmt.outlines d.body)
  | .exprs _ | .stmts _ | .methods _ => True

/-- A clean function is clean as a method. -/
theorem Phrase.Clean.method {d : FunctionDecl} (h : Phrase.Clean (.function .function d)) :
    (d.outline "Method ").Clean := by
  have hword : isWord "Method" = true := by decide
  rw [FunctionDecl.method_eq]
  exact ⟨cleanLabel hword fun s hs => Option.some.inj hs ▸ h.1, h.2⟩

/-- A name has no newline. -/
theorem Token.Is.line {t : Token} (h : t.Is .identifier) : OneLine t.lexeme := h.free rfl

/-- A signature is on one line. -/
theorem signatureText_line {name : Option Token} {ps : List Token} (hname : ∀ t ∈ name, t.Is .identifier)
    (h : Names ps) : OneLine (signatureText name ps) := by
  -- By induction on the parameters, with a comma between two of them.
  have hps : OneLine (", ".intercalate (ps.map Token.lexeme)) := by
    induction ps with
    | nil => decide
    | cons p ps ih =>
      obtain ⟨hp, hps⟩ := List.forall_mem_cons.mp h
      cases ps with
      | nil =>
        rw [List.map_singleton, String.intercalate_singleton]
        exact hp.line
      | cons q ps =>
        rw [List.map_cons, List.map_cons, String.intercalate_cons_cons, oneLine_append, oneLine_append]
        exact ⟨⟨hp.line, by decide⟩, ih hps⟩
  have hshown : OneLine (name.elim "" Token.lexeme) := by
    cases name with
    | none => decide
    | some t => exact (hname t rfl).line
  rw [signatureText, oneLine_append, oneLine_append, oneLine_append]
  exact ⟨⟨⟨hshown, by decide⟩, hps⟩, by decide⟩

/-- The label of a class is on one line. -/
theorem classLabel_line {name : Token} {ref : Option Ref} (h : name.Is .identifier)
    (href : ∀ r ∈ ref, r.name.Is .identifier) : OneLine (classLabel name ref) := by
  refine oneLine_append.mpr ⟨h.line, ?_⟩
  cases ref with
  | none => decide
  | some r => exact oneLine_append.mpr ⟨by decide, (href r rfl).line⟩

/-- **What is worded has a clean outline**, if its strings are on one line. -/
theorem clean_of_worded {p : Phrase} (h : Worded OneLine p) : p.Clean := by
  -- The detail of a node is the text of a token or a constant, on one line because strings are; its children
  -- are clean by the induction hypotheses.
  induction h with
  | literal hl => exact Expr.clean (fun s hs => Option.some.inj hs ▸ Literal.outlineText_line hl) trivial
  | grouping _ ih => exact Expr.clean nofun ⟨ih, trivial⟩
  | unary ho _ ih => exact Expr.clean (fun s hs => Option.some.inj hs ▸ ho.line) ⟨ih, trivial⟩
  | binary _ ho _ ihl ihr | logical _ ho _ ihl ihr =>
    exact Expr.clean (fun s hs => Option.some.inj hs ▸ ho.line) ⟨ihl, ihr, trivial⟩
  | ternary _ _ _ ihc iht ihe => exact Expr.clean nofun ⟨ihc, iht, ihe, trivial⟩
  | name hn => exact Expr.clean (fun s hs => Option.some.inj hs ▸ hn.line) trivial
  | assign hn _ ih | get _ hn ih =>
    exact Expr.clean (fun s hs => Option.some.inj hs ▸ hn.line) ⟨ih, trivial⟩
  | call _ _ _ ihc ihes =>
    refine Expr.clean nofun ⟨ihc, ?_⟩
    rw [Expr.outlines_eq]
    exact Outline.cleanAll_map ihes
  | set _ hn _ iho ihe =>
    exact Expr.clean (fun s hs => Option.some.inj hs ▸ hn.line) ⟨iho, ihe, trivial⟩
  | lambda _ ih => exact Expr.clean (fun s hs => Option.some.inj hs ▸ ih.1) ih.2
  | this _ => exact Expr.clean nofun trivial
  | super _ hm => exact Expr.clean (fun s hs => Option.some.inj hs ▸ hm.line) trivial
  | expression _ ih | value _ ih => exact Stmt.clean nofun ⟨ih, trivial⟩
  | varDecl hn _ ih =>
    refine Stmt.clean (fun s hs => Option.some.inj hs ▸ hn.line) ?_
    rw [Stmt.children, Expr.optionalOutline_eq]
    exact Outline.cleanAll_toList ih
  | block _ ih =>
    refine Stmt.clean nofun ?_
    rw [Stmt.children, Stmt.outlines_eq]
    exact Outline.cleanAll_map ih
  | ifElse _ _ _ ihc iht ihe =>
    refine Stmt.clean nofun ⟨ihc, iht, ?_⟩
    rw [Stmt.optionalOutline_eq]
    exact Outline.cleanAll_toList ihe
  | whileLoop _ _ ihc ihb => exact Stmt.clean nofun ⟨ihc, ihb, trivial⟩
  | breakLoop _ => exact Stmt.clean nofun trivial
  | funcDecl _ ih => exact Stmt.clean (fun s hs => Option.some.inj hs ▸ ih.1) ih.2
  | classDecl hn hsuper _ ih =>
    refine Stmt.clean (fun s hs => Option.some.inj hs ▸ classLabel_line hn hsuper) ?_
    rw [Stmt.children, FunctionDecl.outlines_eq]
    exact Outline.cleanAll_map fun d hd => (ih d hd).method
  | returnValue _ _ ih =>
    refine Stmt.clean nofun ?_
    rw [Stmt.children, Expr.optionalOutline_eq]
    exact Outline.cleanAll_toList ih
  | function hname _ hparams _ ih =>
    refine ⟨signatureText_line hname hparams, ?_⟩
    rw [Stmt.outlines_eq]
    exact Outline.cleanAll_map ih

end Lox
