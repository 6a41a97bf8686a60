import Lox.Proofs.Grammar.Trailing
import Lox.Proofs.Renaming.Respelling
import Lox.Proofs.Renaming.Trees

/-!
  Reading a renamed program.

  Whatever has been derived can be derived with the variable renamed, from tokens among which the new name
  takes the place of the old one (`derives_renamed`).  A derivation is turned into one of the renamed tree from
  its end: the tokens behind a phrase are known first, and those that the phrase is read from are found by
  induction.

  1. `Respelled` relates two lists of tokens, name for name; all that a rule looks at besides names is as
     before (`isName_token` and its like).
  2. `Rereads c s a u` is what is shown of each rule: for every renaming of the tree, and all tokens that
     respell those behind the phrase, there are tokens that respell those before it and from which the renamed
     tree is derived.  There is one lemma for each rule, in the order of the grammar; its proof takes the
     renaming of the tree apart and goes through the parts from the last to the first.
  3. A `for` loop is a tree of loops and blocks.  Its renaming is again the tree of a loop, with renamed clauses
     (`renamed_loop`).
  4. `derives_renamed` names the lemma of each rule, and `parse_renamed` is what follows for a whole program.
-/

namespace Lox.Grammar

variable {r : Renaming}

/-! ## Tokens -/

/-- The tokens are the same, but for the name of the variable in some of them. -/
abbrev Respelled (r : Renaming) : List Token → List Token → Prop :=
  List.Forall₂ (Token.Respelled r.old r.new)

/-- A token keeps its kind. -/
theorem kind_of_respelled {old new : String} {t t' : Token} (h : t.Respelled old new t') : t'.kind = t.kind := by
  rcases h with rfl | ⟨-, rfl⟩ <;> rfl

/-- A renamed token keeps its kind. -/
theorem token_kind (mark : Bool) (t : Token) : (r.token mark t).kind = t.kind := by
  unfold Renaming.token
  split <;> rfl

/-- A name that is renamed stays a name. -/
theorem token_respelled {t : Token} (hn : t.IsName) (mark : Bool) :
    t.Respelled r.old r.new (r.token mark t) := by
  unfold Renaming.token
  split
  · rename_i h
    exact .inr ⟨⟨hn, h.2⟩, rfl⟩
  · exact .inl rfl

/-- Tokens that are kept before others. -/
theorem Respelled.keep {ts ts' : List Token} (h : Respelled r ts ts') (t : Token) :
    Respelled r (t :: ts) (t :: ts') :=
  .cons (.inl rfl) h

/-- A name before other tokens. -/
theorem Respelled.name {ts ts' : List Token} (h : Respelled r ts ts') {t : Token} (hn : t.IsName) (mark : Bool) :
    Respelled r (t :: ts) (r.token mark t :: ts') :=
  .cons (token_respelled hn mark) h

/-- A name stays one. -/
theorem isName_token {t : Token} (hn : t.IsName) (mark : Bool) : (r.token mark t).IsName :=
  (token_kind mark t).trans hn

/-- No token becomes an end of the program. -/
theorem respelled_goes {ts ts' : List Token} (h : Respelled r ts ts') (ht : ∀ t ∈ ts, t.isEof = false) :
    ∀ t ∈ ts', t.isEof = false := by
  induction h with
  | nil => exact nofun
  | cons hrespelled _ ih =>
    rw [List.forall_mem_cons] at ht ⊢
    refine ⟨?_, ih ht.2⟩
    rw [Token.isEof, kind_of_respelled hrespelled]
    exact ht.1

/-- A phrase that does not begin with `func` begins with another token still. -/
theorem notFunc_respelled {s : Stand} {ts : List Token} {i : Nat} (h : Respelled r s.1 ts) (hs : s.NotFunc) :
    Stand.NotFunc (ts, i) := by
  obtain ⟨ts', j⟩ := s
  -- A program ends with nothing, or with a value that has no semicolon.
  cases h with
  | nil => exact nofun
  | cons ht _ =>
    rintro _ ⟨⟩ hk
    exact hs _ rfl ((kind_of_respelled ht).symm.trans hk)

/-! ## Trees

  One lemma for each rule of the grammar: with some tokens respelled there is a derivation of a tree that has
  the same tokens respelled. -/

/-- The expression, with the variable renamed within these scopes. -/
def ExprRenamed (r : Renaming) (marks : List Bool) (e e' : Expr) : Prop := Renamed r marks (.expr e) (.expr e')

def StmtRenamed (r : Renaming) (marks : List Bool) (s s' : Stmt) : Prop := Renamed r marks (.stmt s) (.stmt s')

/-- What is derived, with the variable renamed. -/
def TreeRenamed (r : Renaming) (marks : List Bool) : (c : Category) → c.Tree → c.Tree → Prop
  | .expression, e, e' | .ternary, e, e' | .operators _, e, e' | .unary, e, e' | .call, e, e'
  | .primary, e, e' => Renamed r marks (.expr e) (.expr e')
  | .optional, e, e' => Option.Rel (ExprRenamed r marks) e e'
  | .arguments, es, es' | .argumentList, es, es' => Renamed r marks (.exprs es) (.exprs es')
  | .parameters, names, names' | .parameterList, names, names' =>
    List.Forall₂ (r.Tok (marks.headD false)) names names'
  | .routine _, d, d' => Renamed r marks (.function .function d) (.function .function d')
  | .superclass, ref, ref' => Option.Rel (r.Refs marks) ref ref'
  | .methods, ds, ds' => Renamed r marks (.methods ds) (.methods ds')
  | .initializer, d, d' => Option.Rel (StmtRenamed r marks) d d'
  | .varDecl, d, d' | .conditional _, d, d' | .statement _, d, d' | .declaration _, d, d' =>
    Renamed r marks (.stmt d) (.stmt d')
  | .block _, ds, ds' | .declarations _, ds, ds' => Renamed r marks (.stmts ds) (.stmts ds')

/-- From tokens with the new name in place of the old one the tree can be derived, up to the tokens
    `us`. -/
def Again (r : Renaming) (c : Category) (s : Stand) (a : c.Tree) (us : List Token) (j : Nat) : Prop :=
  ∃ ts, Respelled r s.1 ts ∧ Derives c (ts, s.2) a (us, j)

/-- An operator of a tier has renamed sides. -/
theorem renamed_operator {marks : List Bool} {tier : Tier} {left right e : Expr} {operator : Token}
    (h : Renamed r marks (.expr (tier.tree left operator right)) (.expr e)) :
    ∃ left' right', e = tier.tree left' operator right' ∧ Renamed r marks (.expr left) (.expr left') ∧
      Renamed r marks (.expr right) (.expr right') := by
  cases tier with
  | disjunction | conjunction =>
    cases h with
    | logical hl hr => exact ⟨_, _, rfl, hl, hr⟩
  | equality | comparison | term | factor =>
    cases h with
    | binary hl hr => exact ⟨_, _, rfl, hl, hr⟩

/-- The parts of a counting loop are renamed. -/
theorem renamed_loop {marks : List Bool} {initializer : Option Stmt} {condition increment : Option Expr}
    {body : List Stmt} {s : Stmt}
    (h : Renamed r marks (.stmt (loopTree condition increment body initializer)) (.stmt s)) :
    ∃ initializer' condition' increment' body',
      s = loopTree condition' increment' body' initializer' ∧
      (∃ marks', Option.Rel (StmtRenamed r marks') initializer initializer') ∧
      (∃ marks', Option.Rel (ExprRenamed r marks') condition condition') ∧
      (∃ marks', Option.Rel (ExprRenamed r marks') increment increment') ∧
      ∃ marks', Renamed r marks' (.stmts body) (.stmts body') := by
  -- The parts of the tree, from the inside: a round with its increment, then the loop with its condition.
  have hround : ∀ {marks round}, Renamed r marks (.stmt (roundTree body increment)) (.stmt round) →
      ∃ increment' body', round = roundTree body' increment' ∧
        (∃ marks', Option.Rel (ExprRenamed r marks') increment increment') ∧
        ∃ marks', Renamed r marks' (.stmts body) (.stmts body') := by
    intro marks round h
    cases increment with
    | none =>
      cases h with
      | block hb => exact ⟨none, _, rfl, ⟨marks, .none⟩, _, hb⟩
    | some e =>
      cases h with
      | block h =>
        cases h with
        | stmts hb h =>
          cases hb with
          | block hb =>
            cases h with
            | stmts he h =>
              cases he with
              | expression he =>
                cases h
                exact ⟨some _, _, rfl, ⟨_, .some he⟩, _, hb⟩
  have hloop : ∀ {marks loop}, Renamed r marks (.stmt (loopTree condition increment body none)) (.stmt loop) →
      ∃ condition' increment' body', loop = loopTree condition' increment' body' none ∧
        (∃ marks', Option.Rel (ExprRenamed r marks') condition condition') ∧
        (∃ marks', Option.Rel (ExprRenamed r marks') increment increment') ∧
        ∃ marks', Renamed r marks' (.stmts body) (.stmts body') := by
    intro marks loop h
    cases h with
    | whileLoop hc hb =>
      obtain ⟨increment', body', rfl, hincrement, hbody⟩ := hround hb
      cases condition with
      | none =>
        cases hc
        exact ⟨none, _, _, rfl, ⟨marks, .none⟩, hincrement, hbody⟩
      | some e => exact ⟨some _, _, _, rfl, ⟨_, .some hc⟩, hincrement, hbody⟩
  cases initializer with
  | none =>
    obtain ⟨condition', increment', body', rfl, hrest⟩ := hloop h
    exact ⟨none, _, _, _, rfl, ⟨marks, .none⟩, hrest⟩
  | some first =>
    cases h with
    | block h =>
      cases h with
      | stmts hf h =>
        cases h with
        | stmts hl h =>
          cases h
          obtain ⟨condition', increment', body', rfl, hrest⟩ := hloop hl
          exact ⟨some _, _, _, _, rfl, ⟨_, .some hf⟩, hrest⟩

/-! ## Rules

  A lemma for each rule that has parts: where the parts are read again, so is the whole.  Each proof goes
  from the last part to the first, since what stands behind a part has to be respelled before it is. -/

/-- However the variable is renamed in what has been derived, and however the tokens behind it are
    respelled, the renamed tree is derived from respelled tokens before those. -/
def Rereads (r : Renaming) (c : Category) (s : Stand) (a : c.Tree) (u : Stand) : Prop :=
  ∀ {marks : List Bool} {a' : c.Tree}, TreeRenamed r marks c a a' →
    ∀ {us : List Token}, Respelled r u.1 us → Again r c s a' us u.2

/-- A phrase that begins another, of whatever category: the tokens before it are those before the other. -/
theorem Again.through {c d : Category} {s : Stand} {a : c.Tree} {b : d.Tree} {us vs : List Token} {j k : Nat}
    (h : Again r c s a us j) (hd : ∀ {ts}, Derives c (ts, s.2) a (us, j) → Derives d (ts, s.2) b (vs, k)) :
    Again r d s b vs k :=
  let ⟨ts, hts, ha⟩ := h
  ⟨ts, hts, hd ha⟩

namespace Rereads

variable {s u v w : Stand} {ts us vs : List Token} {i j k : Nat}

/-! ### Expressions -/

/-- The target is an occurrence and may be renamed. -/
theorem assignVariable {name equals : Token} {value : Expr} (hn : name.IsName) (he : equals.IsMark .equal)
    (hvalue : Rereads r .expression (ts, i + 1) value (us, j)) :
    Rereads r .expression (name :: equals :: ts, i) (.assign ⟨j, name⟩ value) (us, j + 1) := by
  intro marks a' ha vs hu
  cases ha with
  | assign href hv =>
    obtain ⟨xs, hxs, hd⟩ := hvalue hv hu
    obtain rfl := href.eq
    exact ⟨_, (hxs.keep _).name hn _, .assignVariable (isName_token hn _) he hd⟩

/-- The name of a property is not. -/
theorem assignProperty {object value : Expr} {dot name equals : Token}
    (hobject : Rereads r .call s object (dot :: name :: equals :: ts, i)) (hd : dot.IsMark .dot)
    (hn : name.IsName) (he : equals.IsMark .equal) (hvalue : Rereads r .expression (ts, i) value u) :
    Rereads r .expression s (.set object name value) u := by
  intro marks a' ha us hu
  cases ha with
  | set ho hv =>
    obtain ⟨xs, hxs, hv⟩ := hvalue hv hu
    exact (hobject ho (((hxs.keep _).keep _).keep _)).through fun ho => .assignProperty ho hd hn he hv

theorem choice {condition thenBranch elseBranch : Expr} {question colon : Token}
    (hcondition : Rereads r (.operators Tier.all) s condition (question :: ts, i))
    (hq : question.IsMark .question) (hthen : Rereads r .ternary (ts, i) thenBranch (colon :: us, j))
    (hc : colon.IsMark .colon) (helse : Rereads r .ternary (us, j) elseBranch u) :
    Rereads r .ternary s (.ternary condition thenBranch elseBranch) u := by
  intro marks a' ha ws hu
  cases ha with
  | ternary hrc hrt hre =>
    obtain ⟨xs, hxs, he⟩ := helse hre hu
    obtain ⟨ys, hys, ht⟩ := hthen hrt (hxs.keep _)
    exact (hcondition hrc (hys.keep _)).through fun h => .choice h hq ht hc he

/-- The operator is kept: a tree with an operator of the tier has one behind the renaming. -/
theorem operator {tier : Tier} {tighter : List Tier} {left right : Expr} {operator : Token}
    (hleft : Rereads r (.operators (tier :: tighter)) s left (operator :: ts, i))
    (ho : operator.kind ∈ tier.operators) (hright : Rereads r (.operators tighter) (ts, i) right u) :
    Rereads r (.operators (tier :: tighter)) s (tier.tree left operator right) u := by
  intro marks a' ha us hu
  obtain ⟨left', right', rfl, hrl, hrr⟩ := renamed_operator ha
  obtain ⟨xs, hxs, hr⟩ := hright hrr hu
  exact (hleft hrl (hxs.keep _)).through fun hl => .operator hl ho hr

/-- The operator is one of the two that have one operand. -/
theorem negated {operator : Token} {right : Expr} (ho : operator.IsMark .bang ∨ operator.IsMark .minus)
    (hright : Rereads r .unary (ts, i) right u) :
    Rereads r .unary (operator :: ts, i) (.unary operator right) u := by
  intro marks a' ha us hu
  cases ha with
  | unary he =>
    obtain ⟨xs, hxs, hd⟩ := hright he hu
    exact ⟨_, hxs.keep _, .negated ho hd⟩

/-! ### Calls and atoms -/

theorem application {callee : Expr} {given : List Expr} {left right : Token}
    (hcallee : Rereads r .call s callee (left :: ts, i)) (hl : left.IsMark .leftParen)
    (hgiven : Rereads r .arguments (ts, i) given (right :: us, j)) (hr : right.IsMark .rightParen) :
    Rereads r .call s (.call callee right given) (us, j) := by
  intro marks a' ha ws hu
  cases ha with
  | call hrc hrg =>
    obtain ⟨xs, hxs, hg⟩ := hgiven hrg (hu.keep _)
    exact (hcallee hrc (hxs.keep _)).through fun hc => .application hc hl hg hr

/-- The name of a property is kept. -/
theorem property {object : Expr} {dot name : Token}
    (hobject : Rereads r .call s object (dot :: name :: ts, i)) (hd : dot.IsMark .dot) (hn : name.IsName) :
    Rereads r .call s (.get object name) (ts, i) := by
  intro marks a' ha us hu
  cases ha with
  | get ho => exact (hobject ho ((hu.keep _).keep _)).through fun h => .property h hd hn

/-- The occurrence takes the new name, and no part has to be read again. -/
theorem name {name : Token} (hn : name.IsName) :
    Rereads r .primary (name :: ts, i) (.variable ⟨i, name⟩) (ts, i + 1) := by
  intro marks a' ha us hu
  cases ha with
  | name href =>
    obtain rfl := href.eq
    exact ⟨_, hu.name hn _, .name (isName_token hn _)⟩

theorem grouping {left right : Token} {inner : Expr} (hl : left.IsMark .leftParen)
    (hinner : Rereads r .expression (ts, i) inner (right :: us, j)) (hr : right.IsMark .rightParen) :
    Rereads r .primary (left :: ts, i) (.grouping inner) (us, j) := by
  intro marks a' ha ws hu
  cases ha with
  | grouping he =>
    obtain ⟨xs, hxs, he⟩ := hinner he (hu.keep _)
    exact ⟨_, hxs.keep _, .grouping hl he hr⟩

/-! ### Lists of expressions and of names -/

theorem given {e : Expr} (he : Rereads r .expression s e u) : Rereads r .optional s (some e) u := by
  intro marks a' ha us hu
  cases ha with
  | some hr => exact (he hr hu).through .given

theorem lastArgument {e : Expr} (he : Rereads r .expression s e u) : Rereads r .argumentList s [e] u := by
  intro marks a' ha us hu
  cases ha with
  | exprs hr hnone =>
    cases hnone
    exact (he hr hu).through .lastArgument

/-- The last part is turned first. -/
theorem argument {first : Expr} {comma : Token} {rest : List Expr}
    (hfirst : Rereads r .expression s first (comma :: ts, i)) (hc : comma.IsMark .comma)
    (hrest : Rereads r .argumentList (ts, i) rest u) : Rereads r .argumentList s (first :: rest) u := by
  intro marks a' ha us hu
  cases ha with
  | exprs hrf hrr =>
    obtain ⟨xs, hxs, hes⟩ := hrest hrr hu
    exact (hfirst hrf (hxs.keep _)).through fun he => .argument he hc hes

/-- A parameter may be renamed, and stays a name. -/
theorem lastParameter {name : Token} (hn : name.IsName) :
    Rereads r .parameterList (name :: ts, i) [name] (ts, i) := by
  intro marks a' ha us hu
  cases ha with
  | cons ht hnames =>
    cases hnames
    obtain rfl := ht.eq
    exact ⟨_, hu.name hn _, .lastParameter (isName_token hn _)⟩

/-- The first parameter and the others. -/
theorem parameter {name comma : Token} {rest : List Token} (hn : name.IsName) (hc : comma.IsMark .comma)
    (hrest : Rereads r .parameterList (ts, i) rest u) :
    Rereads r .parameterList (name :: comma :: ts, i) (name :: rest) u := by
  intro marks a' ha us hu
  cases ha with
  | cons ht hnames =>
    obtain rfl := ht.eq
    obtain ⟨xs, hxs, hd⟩ := hrest hnames hu
    exact ⟨_, (hxs.keep _).name hn _, .parameter (isName_token hn _) hc hd⟩

/-! ### Functions and classes -/

/-- The parameters and the body of a function, read again behind the parenthesis that opens the
    parameters. -/
theorem signature (kind : Routine) {name? : Option Token} {keyword right : Token} {params : List Token}
    {body : List Stmt} (hparams : Rereads r .parameters (ts, i) params (right :: us, j))
    (hbody : Rereads r (.block false) (us, j) body u) {marks : List Bool} {d : FunctionDecl}
    (hd : TreeRenamed r marks (.routine kind) (.mk name? keyword params body) d) {ws : List Token}
    (hu : Respelled r u.1 ws) :
    ∃ params' body' xs ys, d = .mk name? keyword params' body' ∧ Respelled r ts xs ∧
      Derives .parameters (xs, i) params' (right :: ys, j) ∧ Derives (.block false) (ys, j) body' (ws, u.2) := by
  cases hd with
  | @function _ mark _ _ _ _ _ _ _ hrp hrb =>
    obtain ⟨ys, hys, hb⟩ := hbody hrb hu
    -- The parameters are renamed in the frame of the call, which is the innermost of the body.
    obtain ⟨xs, hxs, hp⟩ := hparams (show TreeRenamed r (mark :: marks) .parameters _ _ from hrp) (hys.keep _)
    exact ⟨_, _, xs, ys, rfl, hxs, hp, hb⟩

/-- The name of a function is kept; its parameters and its body have a scope of their own. -/
theorem routine {kind : Routine} {keyword name left right : Token} {params : List Token} {body : List Stmt}
    (hkind : kind ≠ .lambda) (hk : keyword.IsKeyword .funcKw) (hn : name.IsName)
    (hl : left.IsMark .leftParen) (hparams : Rereads r .parameters (ts, i) params (right :: us, j))
    (hr : right.IsMark .rightParen) (hbody : Rereads r (.block false) (us, j) body u) :
    Rereads r (.routine kind) (keyword :: name :: left :: ts, i) (.mk (some name) keyword params body) u := by
  intro marks a' ha ws hu
  obtain ⟨_, _, _, _, rfl, hxs, hp, hb⟩ := signature kind hparams hbody ha hu
  exact ⟨_, ((hxs.keep _).keep _).keep _, .routine hkind hk hn hl hp hr hb⟩

theorem anonymous {keyword left right : Token} {params : List Token} {body : List Stmt}
    (hk : keyword.IsKeyword .funcKw) (hl : left.IsMark .leftParen)
    (hparams : Rereads r .parameters (ts, i) params (right :: us, j)) (hr : right.IsMark .rightParen)
    (hbody : Rereads r (.block false) (us, j) body u) :
    Rereads r (.routine .lambda) (keyword :: left :: ts, i) (.mk none keyword params body) u := by
  intro marks a' ha ws hu
  obtain ⟨_, _, _, _, rfl, hxs, hp, hb⟩ := signature .lambda hparams hbody ha hu
  exact ⟨_, (hxs.keep _).keep _, .anonymous hk hl hp hr hb⟩

/-- The superclass is an occurrence and may be renamed. -/
theorem extending {less name : Token} (hl : less.IsMark .less) (hn : name.IsName) :
    Rereads r .superclass (less :: name :: ts, i) (some ⟨i, name⟩) (ts, i + 1) := by
  intro marks a' ha us hu
  cases ha with
  | some href =>
    obtain rfl := href.eq
    exact ⟨_, (hu.name hn _).keep _, .extending hl (isName_token hn _)⟩

theorem method {first : FunctionDecl} {rest : List FunctionDecl}
    (hfirst : Rereads r (.routine .method) s first u) (hrest : Rereads r .methods u rest v) :
    Rereads r .methods s (first :: rest) v := by
  intro marks a' ha us hu
  cases ha with
  | methods hd hds =>
    obtain ⟨xs, hxs, hds⟩ := hrest hds hu
    exact (hfirst hd.of_kind hxs).through fun hd => .method hd hds

/-- The name of a class is kept. -/
theorem classDecl {inLoop : Bool} {keyword name left right : Token} {superclass : Option Ref}
    {methods : List FunctionDecl} (hk : keyword.IsKeyword .classKw) (hn : name.IsName)
    (hsuper : Rereads r .superclass (ts, i) superclass (left :: us, j)) (hl : left.IsMark .leftBrace)
    (hmethods : Rereads r .methods (us, j) methods (right :: vs, k)) (hr : right.IsMark .rightBrace) :
    Rereads r (.declaration inLoop) (keyword :: name :: ts, i) (.classDecl name superclass methods)
      (vs, k) := by
  intro marks a' ha ws hu
  cases ha with
  | classDecl _ href hds =>
    obtain ⟨xs, hxs, hds⟩ := hmethods hds (hu.keep _)
    obtain ⟨ys, hys, href⟩ := hsuper href (hxs.keep _)
    exact ⟨_, (hys.keep _).keep _, .classDecl hk hn href hl hds hr⟩

/-! ### Declarations -/

theorem function {inLoop : Bool} {d : FunctionDecl} (hd : Rereads r (.routine .function) s d u) :
    Rereads r (.declaration inLoop) s (.funcDecl d) u := by
  intro marks a' ha us hu
  cases ha with
  | funcDecl _ hr => exact (hd hr hu).through .function

/-- The variable may be renamed. -/
theorem unset {keyword name stop : Token} (hk : keyword.IsKeyword .varKw) (hn : name.IsName)
    (ht : stop.IsMark .semicolon) :
    Rereads r .varDecl (keyword :: name :: stop :: ts, i) (.varDecl name none) (ts, i) := by
  intro marks a' ha us hu
  cases ha with
  | unset hname =>
    obtain rfl := hname.eq
    exact ⟨_, ((hu.keep _).name hn _).keep _, .unset hk (isName_token hn _) ht⟩

/-- The variable may be renamed, and its value. -/
theorem set {keyword name equals stop : Token} {value : Expr} (hk : keyword.IsKeyword .varKw)
    (hn : name.IsName) (he : equals.IsMark .equal)
    (hvalue : Rereads r .expression (ts, i) value (stop :: us, j)) (ht : stop.IsMark .semicolon) :
    Rereads r .varDecl (keyword :: name :: equals :: ts, i) (.varDecl name (some value)) (us, j) := by
  intro marks a' ha ws hu
  cases ha with
  | initialized hname hv =>
    obtain rfl := hname.eq
    obtain ⟨xs, hxs, hv⟩ := hvalue hv (hu.keep _)
    exact ⟨_, ((hxs.keep _).name hn _).keep _, .set hk (isName_token hn _) he hv ht⟩

theorem declarations {inLoop : Bool} {first : Stmt} {rest : List Stmt}
    (hfirst : Rereads r (.declaration inLoop) s first u) (hrest : Rereads r (.declarations inLoop) u rest v) :
    Rereads r (.declarations inLoop) s (first :: rest) v := by
  intro marks a' ha us hu
  cases ha with
  | stmts hd hds =>
    obtain ⟨xs, hxs, hds⟩ := hrest hds hu
    exact (hfirst hd hxs).through fun hd => .declarations hd hds

/-- A block has a scope of its own, which may be marked. -/
theorem block {inLoop : Bool} {left right : Token} {body : List Stmt} (hl : left.IsMark .leftBrace)
    (hbody : Rereads r (.declarations inLoop) (ts, i) body (right :: us, j)) (hr : right.IsMark .rightBrace) :
    Rereads r (.block inLoop) (left :: ts, i) body (us, j) := by
  intro marks a' ha ws hu
  obtain ⟨xs, hxs, hb⟩ := hbody ha (hu.keep _)
  exact ⟨_, hxs.keep _, .block hl hb hr⟩

/-! ### Loops and conditionals -/

theorem variableInitializer {d : Stmt} (hd : Rereads r .varDecl s d u) :
    Rereads r .initializer s (some d) u := by
  intro marks a' ha us hu
  cases ha with
  | some hr => exact (hd hr hu).through .variableInitializer

theorem expressionInitializer {e : Expr} {stop : Token} (he : Rereads r .expression s e (stop :: ts, i))
    (ht : stop.IsMark .semicolon) : Rereads r .initializer s (some (.expression e)) (ts, i) := by
  intro marks a' ha us hu
  cases ha with
  | some hs =>
    cases hs with
    | expression hr => exact (he hr (hu.keep _)).through fun he => .expressionInitializer he ht

/-- The parts stand in the tree in another order than in the text, which does not matter: each is read
    again on its own. -/
theorem forLoop {inLoop : Bool} {keyword stop : Token} {initializer : Option Stmt}
    {condition increment : Option Expr} {body : List Stmt} (hk : keyword.IsKeyword .forKw)
    (hinitializer : Rereads r .initializer (ts, i) initializer u)
    (hcondition : Rereads r .optional u condition (stop :: us, j)) (ht : stop.IsMark .semicolon)
    (hincrement : Rereads r .optional (us, j) increment v) (hbody : Rereads r (.block true) v body w) :
    Rereads r (.statement inLoop) (keyword :: ts, i) (loopTree condition increment body initializer) w := by
  intro marks a' ha ws hu
  obtain ⟨_, _, _, _, rfl, ⟨_, hri⟩, ⟨_, hrc⟩, ⟨_, hrn⟩, _, hrb⟩ := renamed_loop ha
  obtain ⟨ys, hys, hb⟩ := hbody hrb hu
  obtain ⟨xs, hxs, hn⟩ := hincrement hrn hys
  obtain ⟨zs, hzs, hc⟩ := hcondition hrc (hxs.keep _)
  obtain ⟨os, hos, hi⟩ := hinitializer hri hzs
  exact ⟨_, hos.keep _, .forLoop hk hi hc ht hn hb⟩

/-- The renaming of the body is again a block. -/
theorem whileLoop {inLoop : Bool} {keyword : Token} {condition : Expr} {body : List Stmt}
    (hk : keyword.IsKeyword .whileKw) (hcondition : Rereads r .expression (ts, i) condition u)
    (hbody : Rereads r (.block true) u body v) :
    Rereads r (.statement inLoop) (keyword :: ts, i) (.whileLoop condition (.block body)) v := by
  intro marks a' ha us hu
  cases ha with
  | whileLoop hrc hrb =>
    cases hrb with
    | block hrb =>
      obtain ⟨ys, hys, hb⟩ := hbody hrb hu
      obtain ⟨xs, hxs, hc⟩ := hcondition hrc hys
      exact ⟨_, hxs.keep _, .whileLoop hk hc hb⟩

theorem ifOnly {inLoop : Bool} {keyword : Token} {condition : Expr} {thenBranch : List Stmt}
    (hk : keyword.IsKeyword .ifKw) (hcondition : Rereads r .expression (ts, i) condition u)
    (hthen : Rereads r (.block inLoop) u thenBranch v) :
    Rereads r (.conditional inLoop) (keyword :: ts, i) (.ifElse condition (.block thenBranch) none) v := by
  intro marks a' ha us hu
  cases ha with
  | ifOnly hrc hrt =>
    cases hrt with
    | block hrt =>
      obtain ⟨ys, hys, ht⟩ := hthen hrt hu
      obtain ⟨xs, hxs, hc⟩ := hcondition hrc hys
      exact ⟨_, hxs.keep _, .ifOnly hk hc ht⟩

/-- Both branches are again blocks. -/
theorem ifElse {inLoop : Bool} {keyword otherwise : Token} {condition : Expr}
    {thenBranch elseBranch : List Stmt} (hk : keyword.IsKeyword .ifKw)
    (hcondition : Rereads r .expression (ts, i) condition u)
    (hthen : Rereads r (.block inLoop) u thenBranch (otherwise :: us, j))
    (ho : otherwise.IsKeyword .elseKw) (helse : Rereads r (.block inLoop) (us, j) elseBranch v) :
    Rereads r (.conditional inLoop) (keyword :: ts, i)
      (.ifElse condition (.block thenBranch) (some (.block elseBranch))) v := by
  intro marks a' ha ws hu
  cases ha with
  | ifElse hrc hrt hre =>
    cases hrt with
    | block hrt =>
      cases hre with
      | block hre =>
        obtain ⟨zs, hzs, he⟩ := helse hre hu
        obtain ⟨ys, hys, ht⟩ := hthen hrt (hzs.keep _)
        obtain ⟨xs, hxs, hc⟩ := hcondition hrc hys
        exact ⟨_, hxs.keep _, .ifElse hk hc ht ho he⟩

/-- The second branch is again a conditional. -/
theorem elseIf {inLoop : Bool} {keyword otherwise : Token} {condition : Expr} {thenBranch : List Stmt}
    {elseBranch : Stmt} (hk : keyword.IsKeyword .ifKw)
    (hcondition : Rereads r .expression (ts, i) condition u)
    (hthen : Rereads r (.block inLoop) u thenBranch (otherwise :: us, j))
    (ho : otherwise.IsKeyword .elseKw) (helse : Rereads r (.conditional inLoop) (us, j) elseBranch v) :
    Rereads r (.conditional inLoop) (keyword :: ts, i)
      (.ifElse condition (.block thenBranch) (some elseBranch)) v := by
  intro marks a' ha ws hu
  cases ha with
  | ifElse hrc hrt hre =>
    cases hrt with
    | block hrt =>
      obtain ⟨zs, hzs, he⟩ := helse hre hu
      obtain ⟨ys, hys, ht⟩ := hthen hrt (hzs.keep _)
      obtain ⟨xs, hxs, hc⟩ := hcondition hrc hys
      exact ⟨_, hxs.keep _, .elseIf hk hc ht ho he⟩

/-! ### Other statements -/

theorem returnValue {inLoop : Bool} {keyword stop : Token} {value : Option Expr}
    (hk : keyword.IsKeyword .returnKw) (hvalue : Rereads r .optional (ts, i) value (stop :: us, j))
    (ht : stop.IsMark .semicolon) :
    Rereads r (.statement inLoop) (keyword :: ts, i) (.returnValue keyword value) (us, j) := by
  intro marks a' ha ws hu
  cases ha with
  | returned =>
    -- Nothing is renamed in a value that is left out, so any scopes around it will do.
    obtain ⟨xs, hxs, hv⟩ := @hvalue marks none .none _ (hu.keep _)
    exact ⟨_, hxs.keep _, .returnValue hk hv ht⟩
  | returnedValue hr =>
    obtain ⟨xs, hxs, hv⟩ := hvalue (.some hr) (hu.keep _)
    exact ⟨_, hxs.keep _, .returnValue hk hv ht⟩

/-- A block as a statement. -/
theorem blockStatement {inLoop : Bool} {body : List Stmt} (hbody : Rereads r (.block inLoop) s body u) :
    Rereads r (.statement inLoop) s (.block body) u := by
  intro marks a' ha us hu
  cases ha with
  | block hr => exact (hbody hr hu).through .blockStatement

theorem expressionStatement {inLoop : Bool} {e : Expr} {stop : Token}
    (he : Rereads r .expression s e (stop :: ts, i)) (ht : stop.IsMark .semicolon) :
    Rereads r (.statement inLoop) s (.expression e) (ts, i) := by
  intro marks a' ha us hu
  cases ha with
  | expression hr => exact (he hr (hu.keep _)).through fun he => .expressionStatement he ht

end Rereads

/-! ## Derivations -/

/-- **What has been derived can be derived with the variable renamed**, from tokens among which the new
    name takes the place of the old one.  By induction on the derivation: the rules with parts by their
    lemmas, and those without by the tokens they read. -/
theorem derives_renamed {c : Category} {s u : Stand} {a : c.Tree} (h : Derives c s a u) :
    Rereads r c s a u := by
  induction h with
  | assignVariable hn he _ ih => exact Rereads.assignVariable hn he ih
  | assignProperty _ hd hn he _ iho ihv => exact Rereads.assignProperty iho hd hn he ihv
  | choice _ hq _ hc _ ihc iht ihe => exact Rereads.choice ihc hq iht hc ihe
  | operator _ ho _ ihl ihr => exact Rereads.operator ihl ho ihr
  | negated ho _ ih => exact Rereads.negated ho ih
  | application _ hl _ hr ihc ihg => exact Rereads.application ihc hl ihg hr
  | property _ hd hn ih => exact Rereads.property ih hd hn
  | name hn => exact Rereads.name hn
  | grouping hl _ hr ih => exact Rereads.grouping hl ih hr
  | given _ ih => exact Rereads.given ih
  | lastArgument _ ih => exact Rereads.lastArgument ih
  | argument _ hc _ ihf ihr => exact Rereads.argument ihf hc ihr
  | lastParameter hn => exact Rereads.lastParameter hn
  | parameter hn hc _ ih => exact Rereads.parameter hn hc ih
  | routine hkind hk hn hl _ hr _ ihp ihb => exact Rereads.routine hkind hk hn hl ihp hr ihb
  | anonymous hk hl _ hr _ ihp ihb => exact Rereads.anonymous hk hl ihp hr ihb
  | extending hl hn => exact Rereads.extending hl hn
  | method _ _ ihf ihr => exact Rereads.method ihf ihr
  | classDecl hk hn _ hl _ hr ihs ihm => exact Rereads.classDecl hk hn ihs hl ihm hr
  | function _ ih => exact Rereads.function ih
  | unset hk hn ht => exact Rereads.unset hk hn ht
  | set hk hn he _ ht ih => exact Rereads.set hk hn he ih ht
  | variableInitializer _ ih => exact Rereads.variableInitializer ih
  | expressionInitializer _ ht ih => exact Rereads.expressionInitializer ih ht
  | forLoop hk _ _ ht _ _ ihi ihc ihn ihb => exact Rereads.forLoop hk ihi ihc ht ihn ihb
  | whileLoop hk _ _ ihc ihb => exact Rereads.whileLoop hk ihc ihb
  | ifOnly hk _ _ ihc ihb => exact Rereads.ifOnly hk ihc ihb
  | ifElse hk _ _ ho _ ihc ihb ihe => exact Rereads.ifElse hk ihc ihb ho ihe
  | elseIf hk _ _ ho _ ihc ihb ihe => exact Rereads.elseIf hk ihc ihb ho ihe
  | returnValue hk _ ht ih => exact Rereads.returnValue hk ih ht
  | blockStatement _ ih => exact Rereads.blockStatement ih
  | expressionStatement _ ht ih => exact Rereads.expressionStatement ih ht
  | block hl _ hr ih => exact Rereads.block hl ih hr
  | declarations _ _ ihd ihds => exact Rereads.declarations ihd ihds
  | lambda _ ih =>
    intro marks a' ha us hu
    cases ha with
    | lambda hd => exact (ih hd hu).through .lambda
  -- A phrase of the tighter category, with the same tree.
  | ternary _ ih => exact fun ha _ hu => (ih ha hu).through .ternary
  | operators _ ih => exact fun ha _ hu => (ih ha hu).through .operators
  | unary _ ih => exact fun ha _ hu => (ih ha hu).through .unary
  | operand _ ih => exact fun ha _ hu => (ih ha hu).through .operand
  | call _ ih => exact fun ha _ hu => (ih ha hu).through .call
  | primary _ ih => exact fun ha _ hu => (ih ha hu).through .primary
  | someArguments _ ih => exact fun ha _ hu => (ih ha hu).through .someArguments
  | someParameters _ ih => exact fun ha _ hu => (ih ha hu).through .someParameters
  | varDecl _ ih => exact fun ha _ hu => (ih ha hu).through .varDecl
  | conditional _ ih => exact fun ha _ hu => (ih ha hu).through .conditional
  | statement hf _ ih =>
    intro marks a' ha us hu
    obtain ⟨ts, hts, hd⟩ := ih ha hu
    exact ⟨ts, hts, .statement (notFunc_respelled hts hf) hd⟩
  -- Tokens that keep their text.
  | number ht => exact fun ha _ hu => by cases ha; exact ⟨_, hu.keep _, .number ht⟩
  | string ht => exact fun ha _ hu => by cases ha; exact ⟨_, hu.keep _, .string ht⟩
  | trueConstant ht => exact fun ha _ hu => by cases ha; exact ⟨_, hu.keep _, .trueConstant ht⟩
  | falseConstant ht => exact fun ha _ hu => by cases ha; exact ⟨_, hu.keep _, .falseConstant ht⟩
  | nilConstant ht => exact fun ha _ hu => by cases ha; exact ⟨_, hu.keep _, .nilConstant ht⟩
  | this hk => exact fun ha _ hu => by cases ha; exact ⟨_, hu.keep _, .this hk⟩
  | super hk hd hm =>
    exact fun ha _ hu => by cases ha; exact ⟨_, ((hu.keep _).keep _).keep _, .super hk hd hm⟩
  | breakLoop hk ht => exact fun ha _ hu => by cases ha; exact ⟨_, (hu.keep _).keep _, .breakLoop hk ht⟩
  | noInitializer ht => exact fun ha _ hu => by cases ha; exact ⟨_, hu.keep _, .noInitializer ht⟩
  -- Nothing is read.
  | omitted => exact fun ha us hu => by cases ha; exact ⟨us, hu, .omitted⟩
  | noArguments => exact fun ha us hu => by cases ha; exact ⟨us, hu, .noArguments⟩
  | noParameters => exact fun ha us hu => by cases ha; exact ⟨us, hu, .noParameters⟩
  | noSuperclass => exact fun ha us hu => by cases ha; exact ⟨us, hu, .noSuperclass⟩
  | noMethods => exact fun ha us hu => by cases ha; exact ⟨us, hu, .noMethods⟩
  | noDeclarations => exact fun ha us hu => by cases ha; exact ⟨us, hu, .noDeclarations⟩

/-! ## Programs -/

/-- Renamed statements fall apart as the statements do. -/
theorem renamed_append {marks : List Bool} {before last program' : List Stmt}
    (h : Renamed r marks (.stmts (before ++ last)) (.stmts program')) :
    ∃ before' last', program' = before' ++ last' ∧ Renamed r marks (.stmts before) (.stmts before') ∧
      Renamed r marks (.stmts last) (.stmts last') := by
  induction before generalizing program' with
  | nil => exact ⟨[], program', rfl, .noStmts, h⟩
  | cons s ss ih =>
    cases h with
    | stmts hs hss =>
      obtain ⟨before', last', rfl, hbefore, hlast⟩ := ih hss
      exact ⟨_ :: before', last', rfl, .stmts hs hbefore, hlast⟩

/-- What stands behind the declarations of a program can stand there with the variable renamed. -/
theorem closes_renamed {interactive : Bool} {s u : Stand} {last last' : List Stmt}
    (h : Closes interactive s last u) {marks : List Bool} (hl : Renamed r marks (.stmts last) (.stmts last'))
    (hu : u.1 = []) : ∃ ts, Respelled r s.1 ts ∧ Closes interactive (ts, s.2) last' ([], u.2) := by
  cases h with
  | nothing =>
    cases hl
    have hend : Respelled r s.1 [] := by
      rw [hu]
      exact .nil
    exact ⟨[], hend, .nothing⟩
  | value hi _ hf he =>
    cases hl with
    | stmts hs hnone =>
      cases hs with
      | value hv =>
        cases hnone
        have hend : Respelled r u.1 [] := by
          rw [hu]
          exact .nil
        obtain ⟨ts, hts, hd⟩ := derives_renamed he hv hend
        exact ⟨ts, hts, .value hi rfl (notFunc_respelled hts hf) hd⟩

/-- A program that has been derived can be derived with the variable renamed. -/
theorem program_renamed {interactive : Bool} {s u : Stand} {program program' : List Stmt}
    (h : DerivesProgram interactive s program u) {marks : List Bool}
    (hp : Renamed r marks (.stmts program) (.stmts program')) (hu : u.1 = []) :
    ∃ ts, Respelled r s.1 ts ∧ DerivesProgram interactive (ts, s.2) program' ([], u.2) := by
  obtain ⟨before, last, v, rfl, hbefore, hlast⟩ := h
  obtain ⟨before', last', rfl, hbefore', hlast'⟩ := renamed_append hp
  obtain ⟨vs, hvs, hlast'⟩ := closes_renamed hlast hlast' hu
  obtain ⟨ts, hts, hbefore'⟩ := derives_renamed hbefore hbefore' hvs
  exact ⟨ts, hts, before', last', _, rfl, hbefore', hlast'⟩

/-- **A renamed program is read from tokens among which the new name takes the place of the old one.** -/
theorem parse_renamed {tokens : List Token} {finish : Token} (hf : finish.isEof = true)
    (ht : ∀ t ∈ tokens, t.isEof = false) {interactive : Bool} {firstId : Nat}
    (h : (parse (tokens ++ [finish]) interactive firstId).diagnostics = []) {marks : List Bool}
    {program' : List Stmt}
    (hp : Renamed r marks (.stmts (parse (tokens ++ [finish]) interactive firstId).program) (.stmts program')) :
    ∃ ts, Respelled r tokens ts ∧ (∀ t ∈ ts, t.isEof = false) ∧
      parse (ts ++ [finish]) interactive firstId =
        ⟨program', [], (parse (tokens ++ [finish]) interactive firstId).nextId⟩ := by
  obtain ⟨u, hend, hnext, hprogram⟩ := program_of_parse h
  rw [takeWhile_before_end hf ht] at hprogram
  obtain ⟨ts, hts, hprogram'⟩ := program_renamed hprogram hp hend
  have hgoes := respelled_goes hts ht
  rw [hnext] at hprogram'
  exact ⟨ts, hts, hgoes, parse_of_program hf hgoes hprogram'⟩

end Lox.Grammar
