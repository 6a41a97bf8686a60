import Lox.Proofs.Grammar.Exact

/-!
  Reading the tokens of one program behind another.

  No rule of the grammar looks at what follows, but to see that a phrase does not go on; and the phrases of a
  program end with a semicolon or a brace.  So a derivation stays one with more tokens behind it
  (`Derives.frame`), and the declarations of one program can be followed by those of another.

  Two programs that are read without a report are therefore read as one, with the statements of both, if the
  numbers of the second go on from those of the first (`parse_join`).  The parser is used in one direction to
  get the two derivations, and in the other to read what is derived together.  In batch mode every statement
  ends with its semicolon or brace, and none is a value to be shown (`not_value_of_declarations`).
-/

namespace Lox.Grammar

/-- What has been derived can be derived with more tokens behind it. -/
theorem Derives.frame {c : Category} {s u : Stand} {a : c.Tree} (h : Derives c s a u) (more : List Token) :
    Derives c (s.1 ++ more, s.2) a (u.1 ++ more, u.2) := by
  induction h with
  | assignVariable hn he _ ih => exact .assignVariable hn he ih
  | assignProperty _ hd hn he _ iho ihv => exact .assignProperty iho hd hn he ihv
  | ternary _ ih => exact .ternary ih
  | operators _ ih => exact .operators ih
  | choice _ hq _ hc _ ihc iht ihe => exact .choice ihc hq iht hc ihe
  | unary _ ih => exact .unary ih
  | operand _ ih => exact .operand ih
  | operator _ ho _ ihl ihr => exact .operator ihl ho ihr
  | negated ho _ ih => exact .negated ho ih
  | lambda _ ih => exact .lambda ih
  | call _ ih => exact .call ih
  | primary _ ih => exact .primary ih
  | application _ hl _ hr ihc ihg => exact .application ihc hl ihg hr
  | property _ hd hn ih => exact .property ih hd hn
  | number ht => exact .number ht
  | string ht => exact .string ht
  | trueConstant ht => exact .trueConstant ht
  | falseConstant ht => exact .falseConstant ht
  | nilConstant ht => exact .nilConstant ht
  | name hn => exact .name hn
  | this hk => exact .this hk
  | super hk hd hm => exact .super hk hd hm
  | grouping hl _ hr ih => exact .grouping hl ih hr
  | omitted => exact .omitted
  | given _ ih => exact .given ih
  | noArguments => exact .noArguments
  | someArguments _ ih => exact .someArguments ih
  | lastArgument _ ih => exact .lastArgument ih
  | argument _ hc _ ihf ihr => exact .argument ihf hc ihr
  | noParameters => exact .noParameters
  | someParameters _ ih => exact .someParameters ih
  | lastParameter hn => exact .lastParameter hn
  | parameter hn hc _ ih => exact .parameter hn hc ih
  | routine hkind hk hn hl _ hr _ ihp ihb => exact .routine hkind hk hn hl ihp hr ihb
  | anonymous hk hl _ hr _ ihp ihb => exact .anonymous hk hl ihp hr ihb
  | noSuperclass => exact .noSuperclass
  | extending hl hn => exact .extending hl hn
  | noMethods => exact .noMethods
  | method _ _ ihf ihr => exact .method ihf ihr
  | classDecl hk hn _ hl _ hr ihs ihm => exact .classDecl hk hn ihs hl ihm hr
  | function _ ih => exact .function ih
  | varDecl _ ih => exact .varDecl ih
  | statement hf hd ih =>
    -- The statement has a first token, which stays the first.
    refine .statement ?_ ih
    obtain ⟨t, ts, i, rfl, -⟩ := hd.begins rfl
    exact hf
  | unset hk hn ht => exact .unset hk hn ht
  | set hk hn he _ ht ih => exact .set hk hn he ih ht
  | noInitializer ht => exact .noInitializer ht
  | variableInitializer _ ih => exact .variableInitializer ih
  | expressionInitializer _ ht ih => exact .expressionInitializer ih ht
  | forLoop hk _ _ ht _ _ ihi ihc ihn ihb => exact .forLoop hk ihi ihc ht ihn ihb
  | whileLoop hk _ _ ihc ihb => exact .whileLoop hk ihc ihb
  | conditional _ ih => exact .conditional ih
  | ifOnly hk _ _ ihc ihb => exact .ifOnly hk ihc ihb
  | ifElse hk _ _ ho _ ihc ihb ihe => exact .ifElse hk ihc ihb ho ihe
  | elseIf hk _ _ ho _ ihc ihb ihe => exact .elseIf hk ihc ihb ho ihe
  | returnValue hk _ ht ih => exact .returnValue hk ih ht
  | breakLoop hk ht => exact .breakLoop hk ht
  | blockStatement _ ih => exact .blockStatement ih
  | expressionStatement _ ht ih => exact .expressionStatement ih ht
  | block hl _ hr ih => exact .block hl ih hr
  | noDeclarations => exact .noDeclarations
  | declarations _ _ ihd ihds => exact .declarations ihd ihds

/-- Declarations may be derived behind declarations. -/
theorem Derives.append {inLoop : Bool} {s u v : Stand} {ss ss' : List Stmt}
    (h : Derives (.declarations inLoop) s ss u) (h' : Derives (.declarations inLoop) u ss' v) :
    Derives (.declarations inLoop) s (ss ++ ss') v := by
  induction ss generalizing s with
  | nil =>
    cases h
    exact h'
  | cons first rest ih =>
    cases h with
    | declarations hd hds => exact .declarations hd (ih hds)

/-- No declaration hands back a value. -/
theorem not_value_of_derives {inLoop : Bool} {s u : Stand} {d : Stmt}
    (h : Derives (.declaration inLoop) s d u) (e : Expr) : d ≠ .value e := by
  cases h with
  | classDecl _ _ _ _ _ _ => nofun
  | function _ => nofun
  | varDecl h => cases h <;> nofun
  | statement _ h =>
    cases h with
    | @forLoop _ _ _ _ initializer _ _ _ _ _ _ _ _ _ _ _ _ _ _ _ => cases initializer <;> nofun
    | conditional h => cases h <;> nofun
    | _ => nofun

/-- What the grammar derives as statements are none of the values that only interactive mode has. -/
theorem not_value_of_declarations {inLoop : Bool} {s u : Stand} {ss : List Stmt}
    (h : Derives (.declarations inLoop) s ss u) : ∀ d ∈ ss, ∀ e, d ≠ .value e := by
  induction ss generalizing s with
  | nil => nofun
  | cons first rest ih =>
    cases h with
    | declarations hd hds =>
      rintro d (_ | ⟨_, hmem⟩)
      · exact not_value_of_derives hd
      · exact ih hds d hmem

/-! ## Programs -/

section Programs

variable {ts ts' : List Token} {finish finish' : Token} {i : Nat}

/-- A program that is read without a report has been derived. -/
theorem derives_of_parse (hf : finish.isEof = true) (ht : ∀ t ∈ ts, t.isEof = false)
    (h : (parse (ts ++ [finish]) false i).diagnostics = []) :
    Derives (.declarations false) (ts, i) (parse (ts ++ [finish]) false i).program
      ([], (parse (ts ++ [finish]) false i).nextId) := by
  obtain ⟨⟨rest, j⟩, hrest, hj, program, ⟨rest', j'⟩, hd, hlast⟩ := trails_of_parse h
  rw [takeWhile_before_end hf ht] at hd
  rcases hlast with ⟨hprogram, heq⟩ | ⟨d, -, htrailing⟩
  · cases heq
    rw [hprogram, ← hj, ← hrest]
    exact hd
  · exact absurd htrailing.1 nofun

/-- **Two programs are read as one**, the numbers of the second going on from those of the first. -/
theorem parse_join (hf : finish.isEof = true) (ht : ∀ t ∈ ts, t.isEof = false)
    (hf' : finish'.isEof = true) (ht' : ∀ t ∈ ts', t.isEof = false)
    (h : (parse (ts ++ [finish]) false i).diagnostics = [])
    (h' : (parse (ts' ++ [finish']) false (parse (ts ++ [finish]) false i).nextId).diagnostics = []) :
    parse (ts ++ (ts' ++ [finish'])) false i =
      ⟨(parse (ts ++ [finish]) false i).program ++
        (parse (ts' ++ [finish']) false (parse (ts ++ [finish]) false i).nextId).program, [],
        (parse (ts' ++ [finish']) false (parse (ts ++ [finish]) false i).nextId).nextId⟩ := by
  have hfirst := (derives_of_parse hf ht h).frame ts'
  have hall : ∀ t ∈ ts ++ ts', t.isEof = false := fun t hmem =>
    (List.mem_append.mp hmem).elim (ht t) (ht' t)
  rw [← List.append_assoc]
  exact parse_of_derives hf' hall (hfirst.append (derives_of_parse hf' ht' h'))

end Programs

end Lox.Grammar
