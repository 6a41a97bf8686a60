import Lox.Proofs.Grammar.Trailing
import Lox.Proofs.Joining.Reading

/-!
  Interactive programs beside others.

  An interactive program differs from another one in its end only.  What is read without a report as the
  one is read so as the other (`interactive_extends`), but for a last expression that lacks its
  semicolon; and this is what the other program has as its last statement, once the semicolon is put
  there.

  Going there and back, a semicolon is put behind a derivation (`Derives.frame`) and taken away again
  (`Derives.unframe`).  Nowhere else in the tree is there a statement that hands back a value: no rule of
  the grammar makes one (`valueless_of_derives`).

  To take tokens away behind a derivation is to go through it from its end.  The last part of a phrase ends
  where the phrase does, and so its tokens are known to lie in front of those that are taken away; then the same
  is known of the part before it, up to the first.  In each case the parts are therefore treated in the
  order opposite to that in which they stand.
-/

namespace Lox

/-! ## Trees without values -/

mutual

/-- No statement in the functions of the expression hands back a value. -/
def Expr.Valueless : Expr → Prop
  | .literal _ | .variable _ | .this _ | .super _ _ => True
  | .grouping e | .unary _ e | .assign _ e | .get e _ => e.Valueless
  | .binary l _ r | .logical l _ r => l.Valueless ∧ r.Valueless
  | .ternary c t e => c.Valueless ∧ t.Valueless ∧ e.Valueless
  | .call c _ es => c.Valueless ∧ valuelessExprs es
  | .set o _ e => o.Valueless ∧ e.Valueless
  | .lambda d => d.Valueless

/-- So it is in all of the expressions. -/
def valuelessExprs : List Expr → Prop
  | [] => True
  | e :: es => e.Valueless ∧ valuelessExprs es

/-- So it is in the expression, if there is one. -/
def valuelessOptional : Option Expr → Prop
  | none => True
  | some e => e.Valueless

/-- The statement does not hand back a value, nor does any statement in it. -/
def Stmt.Valueless : Stmt → Prop
  | .value _ => False
  | .expression e => e.Valueless
  | .varDecl _ e | .returnValue _ e => valuelessOptional e
  | .block ss => valuelessStmts ss
  | .ifElse c t e => c.Valueless ∧ t.Valueless ∧ valuelessElse e
  | .whileLoop c b => c.Valueless ∧ b.Valueless
  | .breakLoop _ => True
  | .funcDecl d => d.Valueless
  | .classDecl _ _ ds => valuelessMethods ds

/-- So it is in all of the statements. -/
def valuelessStmts : List Stmt → Prop
  | [] => True
  | s :: ss => s.Valueless ∧ valuelessStmts ss

/-- So it is in the branch, if there is one. -/
def valuelessElse : Option Stmt → Prop
  | none => True
  | some s => s.Valueless

/-- So it is in the body. -/
def FunctionDecl.Valueless : FunctionDecl → Prop
  | .mk _ _ _ body => valuelessStmts body

/-- So it is in all of the methods. -/
def valuelessMethods : List FunctionDecl → Prop
  | [] => True
  | d :: ds => d.Valueless ∧ valuelessMethods ds

end

namespace Grammar

/-- What is true of the trees that have been derived. -/
def Category.Valueless : (c : Category) → c.Tree → Prop
  | .expression, e | .ternary, e | .operators _, e | .unary, e | .call, e | .primary, e =>
    Expr.Valueless e
  | .optional, e => valuelessOptional e
  | .arguments, es | .argumentList, es => valuelessExprs es
  | .parameters, _ | .parameterList, _ | .superclass, _ => True
  | .routine _, d => FunctionDecl.Valueless d
  | .methods, ds => valuelessMethods ds
  | .initializer, s => valuelessElse s
  | .varDecl, s | .conditional _, s | .statement _, s | .declaration _, s => Stmt.Valueless s
  | .block _, ss | .declarations _, ss => valuelessStmts ss

/-- The tree of a counting loop adds no statement that hands back a value. -/
theorem valueless_loop {initializer : Option Stmt} {condition increment : Option Expr}
    {body : List Stmt} (hi : valuelessElse initializer) (hc : valuelessOptional condition)
    (hn : valuelessOptional increment) (hb : valuelessStmts body) :
    (loopTree condition increment body initializer).Valueless := by
  have hcondition : (condition.getD (.literal (.bool true))).Valueless := by
    cases condition with
    | none => exact trivial
    | some c => exact hc
  have hround : (roundTree body increment).Valueless := by
    cases increment with
    | none => exact hb
    | some e => exact ⟨hb, hn, trivial⟩
  cases initializer with
  | none => exact ⟨hcondition, hround⟩
  | some first => exact ⟨hi, ⟨hcondition, hround⟩, trivial⟩

/-- **No rule makes a statement that hands back a value.** -/
theorem valueless_of_derives {c : Category} {s u : Stand} {a : c.Tree} (h : Derives c s a u) :
    c.Valueless a := by
  induction h with
  | @operator tier _ _ _ _ _ _ _ _ _ _ _ ihl ihr => cases tier <;> exact ⟨ihl, ihr⟩
  | forLoop _ _ _ _ _ _ ihi ihc ihn ihb => exact valueless_loop ihi ihc ihn ihb
  | _ => simp_all [Category.Valueless, Expr.Valueless, valuelessExprs, valuelessOptional,
      Stmt.Valueless, valuelessStmts, valuelessElse, FunctionDecl.Valueless, valuelessMethods]

/-! ## Derivations without what stands behind them -/

/-- What has been derived before some tokens can be derived without them. -/
theorem Derives.unframe {c : Category} {s u : Stand} {a : c.Tree} (h : Derives c s a u)
    {more : List Token} (left : List Token) (hu : u.1 = left ++ more) :
    ∃ ts, s.1 = ts ++ more ∧ Derives c (ts, s.2) a (left, u.2) := by
  induction h generalizing left with
  -- Each case goes from the last part of the phrase to its first; `left` is what remains behind a part of the
  -- tokens that stay.
  | assignVariable hn he _ ih =>
    obtain ⟨ts, rfl, hvalue⟩ := ih _ hu
    exact ⟨_ :: _ :: ts, rfl, .assignVariable hn he hvalue⟩
  | assignProperty _ hd hn he _ iho ihv =>
    obtain ⟨ts, rfl, hvalue⟩ := ihv _ hu
    obtain ⟨us, hs, hobject⟩ := iho (_ :: _ :: _ :: ts) rfl
    exact ⟨us, hs, .assignProperty hobject hd hn he hvalue⟩
  | ternary _ ih => exact (ih _ hu).imp fun _ h => ⟨h.1, .ternary h.2⟩
  | operators _ ih => exact (ih _ hu).imp fun _ h => ⟨h.1, .operators h.2⟩
  | choice _ hq _ hc _ ihc iht ihe =>
    obtain ⟨us, rfl, helse⟩ := ihe _ hu
    obtain ⟨ts, rfl, hthen⟩ := iht (_ :: us) rfl
    obtain ⟨vs, hs, hcondition⟩ := ihc (_ :: ts) rfl
    exact ⟨vs, hs, .choice hcondition hq hthen hc helse⟩
  | unary _ ih => exact (ih _ hu).imp fun _ h => ⟨h.1, .unary h.2⟩
  | operand _ ih => exact (ih _ hu).imp fun _ h => ⟨h.1, .operand h.2⟩
  | operator _ ho _ ihl ihr =>
    obtain ⟨ts, rfl, hright⟩ := ihr _ hu
    obtain ⟨us, hs, hleft⟩ := ihl (_ :: ts) rfl
    exact ⟨us, hs, .operator hleft ho hright⟩
  | negated ho _ ih =>
    obtain ⟨ts, rfl, hright⟩ := ih _ hu
    exact ⟨_ :: ts, rfl, .negated ho hright⟩
  | lambda _ ih => exact (ih _ hu).imp fun _ h => ⟨h.1, .lambda h.2⟩
  | call _ ih => exact (ih _ hu).imp fun _ h => ⟨h.1, .call h.2⟩
  | primary _ ih => exact (ih _ hu).imp fun _ h => ⟨h.1, .primary h.2⟩
  | application _ hl _ hr ihc ihg =>
    obtain rfl : _ = left ++ more := hu
    obtain ⟨ts, rfl, hgiven⟩ := ihg (_ :: left) rfl
    obtain ⟨us, hs, hcallee⟩ := ihc (_ :: ts) rfl
    exact ⟨us, hs, .application hcallee hl hgiven hr⟩
  | property _ hd hn ih =>
    obtain rfl : _ = left ++ more := hu
    exact (ih (_ :: _ :: left) rfl).imp fun _ h => ⟨h.1, .property h.2 hd hn⟩
  | number ht => exact ⟨_ :: left, congrArg _ hu, .number ht⟩
  | string ht => exact ⟨_ :: left, congrArg _ hu, .string ht⟩
  | trueConstant ht => exact ⟨_ :: left, congrArg _ hu, .trueConstant ht⟩
  | falseConstant ht => exact ⟨_ :: left, congrArg _ hu, .falseConstant ht⟩
  | nilConstant ht => exact ⟨_ :: left, congrArg _ hu, .nilConstant ht⟩
  | name hn => exact ⟨_ :: left, congrArg _ hu, .name hn⟩
  | this hk => exact ⟨_ :: left, congrArg _ hu, .this hk⟩
  | super hk hd hm =>
    obtain rfl : _ = left ++ more := hu
    exact ⟨_ :: _ :: _ :: left, rfl, .super hk hd hm⟩
  | grouping hl _ hr ih =>
    obtain rfl : _ = left ++ more := hu
    obtain ⟨ts, rfl, hinner⟩ := ih (_ :: left) rfl
    exact ⟨_ :: ts, rfl, .grouping hl hinner hr⟩
  | omitted => exact ⟨left, hu, .omitted⟩
  | given _ ih => exact (ih _ hu).imp fun _ h => ⟨h.1, .given h.2⟩
  | noArguments => exact ⟨left, hu, .noArguments⟩
  | someArguments _ ih => exact (ih _ hu).imp fun _ h => ⟨h.1, .someArguments h.2⟩
  | lastArgument _ ih => exact (ih _ hu).imp fun _ h => ⟨h.1, .lastArgument h.2⟩
  | argument _ hc _ ihf ihr =>
    obtain ⟨ts, rfl, hrest⟩ := ihr _ hu
    obtain ⟨us, hs, hfirst⟩ := ihf (_ :: ts) rfl
    exact ⟨us, hs, .argument hfirst hc hrest⟩
  | noParameters => exact ⟨left, hu, .noParameters⟩
  | someParameters _ ih => exact (ih _ hu).imp fun _ h => ⟨h.1, .someParameters h.2⟩
  | lastParameter hn => exact ⟨_ :: left, congrArg _ hu, .lastParameter hn⟩
  | parameter hn hc _ ih =>
    obtain ⟨ts, rfl, hrest⟩ := ih _ hu
    exact ⟨_ :: _ :: ts, rfl, .parameter hn hc hrest⟩
  | routine hkind hk hn hl _ hr _ ihp ihb =>
    obtain ⟨us, rfl, hbody⟩ := ihb _ hu
    obtain ⟨ts, rfl, hparams⟩ := ihp (_ :: us) rfl
    exact ⟨_ :: _ :: _ :: ts, rfl, .routine hkind hk hn hl hparams hr hbody⟩
  | anonymous hk hl _ hr _ ihp ihb =>
    obtain ⟨us, rfl, hbody⟩ := ihb _ hu
    obtain ⟨ts, rfl, hparams⟩ := ihp (_ :: us) rfl
    exact ⟨_ :: _ :: ts, rfl, .anonymous hk hl hparams hr hbody⟩
  | noSuperclass => exact ⟨left, hu, .noSuperclass⟩
  | extending hl hn =>
    obtain rfl : _ = left ++ more := hu
    exact ⟨_ :: _ :: left, rfl, .extending hl hn⟩
  | noMethods => exact ⟨left, hu, .noMethods⟩
  | method _ _ ihf ihr =>
    obtain ⟨ts, hts, hrest⟩ := ihr _ hu
    exact (ihf _ hts).imp fun _ h => ⟨h.1, .method h.2 hrest⟩
  | classDecl hk hn _ hl _ hr ihs ihm =>
    obtain rfl : _ = left ++ more := hu
    obtain ⟨us, rfl, hmethods⟩ := ihm (_ :: left) rfl
    obtain ⟨ts, rfl, hsuper⟩ := ihs (_ :: us) rfl
    exact ⟨_ :: _ :: ts, rfl, .classDecl hk hn hsuper hl hmethods hr⟩
  | function _ ih => exact (ih _ hu).imp fun _ h => ⟨h.1, .function h.2⟩
  | varDecl _ ih => exact (ih _ hu).imp fun _ h => ⟨h.1, .varDecl h.2⟩
  | statement hf _ ih =>
    -- The first token stays the first, if it is not among those that are taken away.
    obtain ⟨ts, hs, hd⟩ := ih _ hu
    refine ⟨ts, hs, .statement (fun t ht => hf t ?_) hd⟩
    rw [hs, List.head?_append, show ts.head? = some t from ht]
    rfl
  | unset hk hn ht =>
    obtain rfl : _ = left ++ more := hu
    exact ⟨_ :: _ :: _ :: left, rfl, .unset hk hn ht⟩
  | set hk hn he _ ht ih =>
    obtain rfl : _ = left ++ more := hu
    obtain ⟨ts, rfl, hvalue⟩ := ih (_ :: left) rfl
    exact ⟨_ :: _ :: _ :: ts, rfl, .set hk hn he hvalue ht⟩
  | noInitializer ht => exact ⟨_ :: left, congrArg _ hu, .noInitializer ht⟩
  | variableInitializer _ ih => exact (ih _ hu).imp fun _ h => ⟨h.1, .variableInitializer h.2⟩
  | expressionInitializer _ ht ih =>
    obtain rfl : _ = left ++ more := hu
    exact (ih (_ :: left) rfl).imp fun _ h => ⟨h.1, .expressionInitializer h.2 ht⟩
  | forLoop hk _ _ ht _ _ ihi ihc ihn ihb =>
    obtain ⟨vs, hvs, hbody⟩ := ihb _ hu
    obtain ⟨us, rfl, hincrement⟩ := ihn _ hvs
    obtain ⟨ws, hws, hcondition⟩ := ihc (_ :: us) rfl
    obtain ⟨ts, rfl, hinitializer⟩ := ihi _ hws
    exact ⟨_ :: ts, rfl, .forLoop hk hinitializer hcondition ht hincrement hbody⟩
  | whileLoop hk _ _ ihc ihb =>
    obtain ⟨us, hus, hbody⟩ := ihb _ hu
    obtain ⟨ts, rfl, hcondition⟩ := ihc _ hus
    exact ⟨_ :: ts, rfl, .whileLoop hk hcondition hbody⟩
  | conditional _ ih => exact (ih _ hu).imp fun _ h => ⟨h.1, .conditional h.2⟩
  | ifOnly hk _ _ ihc ihb =>
    obtain ⟨us, hus, hthen⟩ := ihb _ hu
    obtain ⟨ts, rfl, hcondition⟩ := ihc _ hus
    exact ⟨_ :: ts, rfl, .ifOnly hk hcondition hthen⟩
  | ifElse hk _ _ ho _ ihc ihb ihe =>
    obtain ⟨vs, rfl, helse⟩ := ihe _ hu
    obtain ⟨us, hus, hthen⟩ := ihb (_ :: vs) rfl
    obtain ⟨ts, rfl, hcondition⟩ := ihc _ hus
    exact ⟨_ :: ts, rfl, .ifElse hk hcondition hthen ho helse⟩
  | elseIf hk _ _ ho _ ihc ihb ihe =>
    obtain ⟨vs, rfl, helse⟩ := ihe _ hu
    obtain ⟨us, hus, hthen⟩ := ihb (_ :: vs) rfl
    obtain ⟨ts, rfl, hcondition⟩ := ihc _ hus
    exact ⟨_ :: ts, rfl, .elseIf hk hcondition hthen ho helse⟩
  | returnValue hk _ ht ih =>
    obtain rfl : _ = left ++ more := hu
    obtain ⟨ts, rfl, hvalue⟩ := ih (_ :: left) rfl
    exact ⟨_ :: ts, rfl, .returnValue hk hvalue ht⟩
  | breakLoop hk ht =>
    obtain rfl : _ = left ++ more := hu
    exact ⟨_ :: _ :: left, rfl, .breakLoop hk ht⟩
  | blockStatement _ ih => exact (ih _ hu).imp fun _ h => ⟨h.1, .blockStatement h.2⟩
  | expressionStatement _ ht ih =>
    obtain rfl : _ = left ++ more := hu
    exact (ih (_ :: left) rfl).imp fun _ h => ⟨h.1, .expressionStatement h.2 ht⟩
  | block hl _ hr ih =>
    obtain rfl : _ = left ++ more := hu
    obtain ⟨ts, rfl, hbody⟩ := ih (_ :: left) rfl
    exact ⟨_ :: ts, rfl, .block hl hbody hr⟩
  | noDeclarations => exact ⟨left, hu, .noDeclarations⟩
  | declarations _ _ ihd ihds =>
    obtain ⟨ts, hts, hrest⟩ := ihds _ hu
    exact (ihd _ hts).imp fun _ h => ⟨h.1, .declarations h.2 hrest⟩

/-! ## The last declaration

  Declarations can be split before the last one, and only the last can be an expression without a semicolon. -/

/-- Declarations may be derived in two parts. -/
theorem Derives.split {inLoop : Bool} {s u : Stand} {before last : List Stmt}
    (h : Derives (.declarations inLoop) s (before ++ last) u) :
    ∃ v, Derives (.declarations inLoop) s before v ∧ Derives (.declarations inLoop) v last u := by
  induction before generalizing s with
  | nil => exact ⟨s, .noDeclarations, h⟩
  | cons first rest ih =>
    cases h with
    | declarations hd hds =>
      obtain ⟨v, hrest, hlast⟩ := ih hds
      exact ⟨v, .declarations hd hrest, hlast⟩

/-- A declaration that is an expression ends with a semicolon, and does not begin with `func`. -/
theorem expression_of_declaration {inLoop : Bool} {s : Stand} {e : Expr} {ts : List Token} {i : Nat}
    (h : Derives (.declaration inLoop) s (.expression e) (ts, i)) :
    s.NotFunc ∧ ∃ stop : Token, stop.IsMark .semicolon ∧ Derives .expression s e (stop :: ts, i) := by
  generalize hd : Stmt.expression e = d at h
  cases h with
  | classDecl _ _ _ _ _ _ => cases hd
  | function _ => cases hd
  | varDecl h => cases h <;> cases hd
  | statement hf h =>
    cases h with
    | expressionStatement he hstop =>
      cases hd
      exact ⟨hf, _, hstop, he⟩
    | @forLoop _ _ _ _ initializer _ _ _ _ _ _ _ _ _ _ _ _ _ _ _ => cases initializer <;> cases hd
    | conditional h => cases h <;> cases hd
    | _ => cases hd

/-- A semicolon makes a statement of the last expression of an interactive program. -/
theorem derives_of_value {s v u : Stand} {before : List Stmt} {e : Expr} {stop : Token}
    (hbefore : Derives (.declarations false) s before v) (hu : u.1 = []) (hf : v.NotFunc)
    (he : Derives .expression v e u) (hstop : stop.IsMark .semicolon) :
    Derives (.declarations false) (s.1 ++ [stop], s.2) (before ++ [.expression e]) ([], u.2) := by
  have hvalue := he.frame [stop]
  rw [hu, List.nil_append] at hvalue
  have hnotFunc : Stand.NotFunc (v.1 ++ [stop], v.2) := by
    obtain ⟨t, ts, i, rfl, -⟩ := he.begins rfl
    exact hf
  have hlast : Derives (.declaration false) (v.1 ++ [stop], v.2) (.expression e) ([], u.2) :=
    .statement hnotFunc (.expressionStatement hvalue hstop)
  exact (hbefore.frame [stop]).append (.declarations hlast .noDeclarations)

/-- Without its semicolon a last statement that is an expression closes an interactive program. -/
theorem program_of_expression {ts : List Token} {i j : Nat} {before : List Stmt} {e : Expr} {stop : Token}
    (h : Derives (.declarations false) (ts ++ [stop], i) (before ++ [.expression e]) ([], j)) :
    DerivesProgram true (ts, i) (before ++ [.value e]) ([], j) := by
  obtain ⟨v, hbefore, hlast⟩ := h.split
  cases hlast with
  | declarations hd hnone =>
    cases hnone
    obtain ⟨hf, stop', hstop, he⟩ := expression_of_declaration hd
    -- The semicolon is the last token.
    obtain ⟨vs, hv, he'⟩ := he.unframe [] rfl
    obtain ⟨us, hus, hbefore'⟩ := hbefore.unframe vs hv
    obtain ⟨rfl, -⟩ := List.append_inj' hus rfl
    refine ⟨before, [.value e], (vs, v.2), rfl, hbefore', .value rfl rfl ?_ he'⟩
    intro t ht
    refine hf t ?_
    rw [hv, List.head?_append, show vs.head? = some t from ht]
    rfl

/-! ## Interactive programs and others -/

/-- **Interactive reading extends the other.**  A program that is read without a report is read to the
    same as an interactive one.  An interactive program that is read without a report is read to the
    same as another one, or its last statement, and no other in the whole tree, hands back a value; with
    a semicolon behind it, it is then read without a report as another one, to the same but for the last
    statement, which is the expression.  And where a program with a semicolon at its end is read without
    a report and its last statement is an expression, it is read without the semicolon as an interactive
    one, to the same but for the last statement, which hands back the value. -/
theorem interactive_extends (ts : List Token) (finish : Token) (firstId : Nat)
    (hf : finish.isEof = true) (ht : ∀ t ∈ ts, t.isEof = false) :
    let batch := parse (ts ++ [finish]) false firstId
    let live := parse (ts ++ [finish]) true firstId
    (batch.diagnostics = [] → live = batch) ∧
    (live.diagnostics = [] → live = batch ∨
      ∃ before e, live.program = before ++ [.value e] ∧ valuelessStmts before ∧ e.Valueless ∧
        ∀ stop : Token, stop.IsMark .semicolon → parse (ts ++ [stop] ++ [finish]) false firstId =
          ⟨before ++ [.expression e], [], live.nextId⟩) ∧
    ∀ (stop : Token) before e, stop.IsMark .semicolon →
      let stopped := parse (ts ++ [stop] ++ [finish]) false firstId
      stopped.diagnostics = [] → stopped.program = before ++ [.expression e] →
        live = ⟨before ++ [.value e], [], stopped.nextId⟩ := by
  intro batch live
  have hstopped : ∀ stop : Token, stop.IsMark .semicolon → ∀ t ∈ ts ++ [stop], t.isEof = false := by
    intro stop hstop t hmem
    rcases List.mem_append.mp hmem with hmem | hmem
    · exact ht t hmem
    · rw [List.mem_singleton.mp hmem, Token.isEof, show stop.kind = _ from hstop]
      rfl
  -- Accepted as a batch; accepted live; accepted as a batch with the semicolon.
  refine ⟨fun h => ?_, fun h => ?_, ?_⟩
  · have hd := derives_of_parse hf ht h
    have hlive : live = ⟨batch.program, [], batch.nextId⟩ :=
      parse_of_program hf ht ⟨batch.program, [], _, (List.append_nil _).symm, hd, .nothing⟩
    rw [hlive, ← h]
  · obtain ⟨⟨rest, j⟩, rfl, hj, before, last, v, hprogram, hbefore, hlast⟩ := program_of_parse h
    rw [takeWhile_before_end hf ht] at hbefore
    obtain rfl : j = live.nextId := hj
    cases hlast with
    | nothing =>
      left
      rw [List.append_nil] at hprogram
      have hbatch : batch = ⟨before, [], live.nextId⟩ := parse_of_derives hf ht hbefore
      rw [hbatch, ← hprogram, ← h]
    | @value _ e _ _ hfunc he =>
      right
      refine ⟨before, e, hprogram, valueless_of_derives hbefore, valueless_of_derives he, ?_⟩
      intro stop hstop
      exact parse_of_derives hf (hstopped stop hstop) (derives_of_value hbefore rfl hfunc he hstop)
  · intro stop before e hstop stopped h hprogram
    have hd := derives_of_parse hf (hstopped stop hstop) h
    rw [hprogram] at hd
    exact parse_of_program hf ht (program_of_expression hd)

/-- The last of two expressions lacks its semicolon. -/
theorem trailing_expression_is_value :
    let stop : Token := ⟨.mark .semicolon, ";", 1⟩
    let one : Token := ⟨.identifier, "one", 1⟩
    let two : Token := ⟨.identifier, "two", 1⟩
    let ts : List Token := [one, stop, two]
    let before : List Stmt := [.expression (.variable ⟨0, one⟩)]
    let e : Expr := .variable ⟨1, two⟩
    (Token.finish 1).isEof = true ∧ (∀ t ∈ ts, t.isEof = false) ∧
      parse (ts ++ [.finish 1]) true 0 = ⟨before ++ [.value e], [], 2⟩ ∧
      parse (ts ++ [stop] ++ [.finish 1]) false 0 = ⟨before ++ [.expression e], [], 2⟩ := by
  intro stop one two ts before e
  have hf : (Token.finish 1).isEof = true := by decide
  have ht : ∀ t ∈ ts, t.isEof = false := by decide
  have hstopped : parse (ts ++ [stop] ++ [.finish 1]) false 0 = ⟨before ++ [.expression e], [], 2⟩ := rfl
  have hlive := (interactive_extends ts (.finish 1) 0 hf ht).2.2 stop before e rfl rfl rfl
  exact ⟨hf, ht, hlive, hstopped⟩

end Grammar

end Lox
