import Lox.Proofs.Scope.Formed

/-!
  What a walk over a phrase changes.

  The resolver goes over a program once and takes three things with it: what it has reported, which distance
  it has found for which occurrence, and the scopes that are open.  A phrase can change each of them in one way
  only.

  1. It reports more and more, and records distances for its own occurrences only: `Effect` says so of two
     walks and a list of numbers, and `effect_of_formed` of every formed phrase, with the numbers that
     `Formed` lists for it.
  2. It leaves the scopes as they are, but for names that the declarations among the statements add to the
     innermost one (`Growth`, `growth_of_formed`).  None of the names added is `this` or `super`, since a
     formed phrase declares plain names; this is what makes those two scopes recognizable later.

  Both are one induction on the formedness of the phrase.  Every small step of a walk has a lemma of its own
  for either of them, so that a case puts the lemmas of its steps together in the order of the source.
-/

namespace Lox

/-- A table with one more entry contains the new key and those that it contained. -/
theorem Table.contains_insert {α : Type} (t : Table α) (name other : String) (a : α) :
    (t.insert name a).contains other = (decide (name = other) || t.contains other) := by
  rw [contains, get?_insert]
  by_cases h : name = other
  · simp [h]
  · simp [h, contains]

/-- A table of one entry contains its key and nothing else. -/
theorem Table.contains_single {α : Type} (name other : String) (a : α) :
    (Table.empty.insert name a).contains other = decide (other = name) := by
  rw [contains_insert]
  exact (Bool.or_false _).trans (decide_eq_decide.mpr eq_comm)

/-- Walks over the phrase. -/
def Phrase.walk (ctx : Scope.Context) : Phrase → Scope.Walk → Scope.Walk
  | .expr e, w => Scope.walkExpr ctx e w
  | .exprs es, w => Scope.walkExprs ctx es w
  | .stmt s, w => Scope.walkStmt ctx s w
  | .stmts ss, w => Scope.walkStmts ctx ss w
  | .function kind d, w => Scope.walkFunction ctx kind d w
  | .methods ds, w => Scope.walkMethods ctx ds w

/-- Of the phrases only statements can give names to the innermost scope. -/
def Phrase.IsQuiet : Phrase → Prop
  | .stmt s => s.IsQuiet
  | .stmts _ => False
  | _ => True

namespace Scope

/-- The second walk knows at least what the first has reported, and differs in what has been found
    about these occurrences only. -/
structure Effect (is : List Nat) (w w' : Walk) : Prop where
  clean : w'.problems = #[] → w.problems = #[]
  found : ∀ id ∉ is, w'.found[id]? = w.found[id]?

namespace Effect

/-- Where nothing happens nothing changes. -/
theorem refl (w : Walk) : Effect [] w w := ⟨id, fun _ _ => rfl⟩

/-- Of two walks in a row the first and then the second have found what the whole has. -/
theorem trans {is js : List Nat} {u v w : Walk} (h : Effect is u v) (h' : Effect js v w) :
    Effect (is ++ js) u w := by
  refine ⟨fun hw => h.clean (h'.clean hw), fun id hid => ?_⟩
  rw [List.mem_append, not_or] at hid
  rw [h'.found id hid.2, h.found id hid.1]

/-- The second walk finds nothing. -/
theorem trans_nil {is : List Nat} {u v w : Walk} (h : Effect is u v) (h' : Effect [] v w) :
    Effect is u w := by
  have h₂ := h.trans h'
  rwa [List.append_nil] at h₂

/-- What is found about fewer occurrences is found about fewer than more. -/
theorem mono {is js : List Nat} {w w' : Walk} (h : Effect is w w') (hs : is ⊆ js) :
    Effect js w w' :=
  ⟨h.clean, fun id hid => h.found id fun hi => hid (hs hi)⟩

/-- Where only the scopes differ. -/
theorem of_scopes {w w' : Walk} (hp : w'.problems = w.problems) (hf : w'.found = w.found) :
    Effect [] w w' :=
  ⟨fun h => hp ▸ h, fun id _ => by rw [hf]⟩

theorem enter (w : Walk) : Effect [] w w.enter := of_scopes rfl rfl

theorem leave (w : Walk) : Effect [] w w.leave := of_scopes rfl rfl

theorem define (name : String) (w : Walk) : Effect [] w (w.define name) := by
  unfold Walk.define
  split <;> exact of_scopes rfl rfl

theorem report (token : Token) (fault : ScopingFault) (w : Walk) :
    Effect [] w (w.report token fault) :=
  ⟨fun h => absurd (congrArg Array.size h) (by simp [Walk.report]), fun _ _ => rfl⟩

/-- To declare a name reports it at most. -/
theorem declare (name : Token) (w : Walk) : Effect [] w (w.declare name) := by
  unfold Walk.declare
  split
  · exact refl w
  · split
    · exact report name _ w
    · exact of_scopes rfl rfl

theorem bind (name : Token) (w : Walk) : Effect [] w (w.bind name) :=
  (declare name w).trans (define name.lexeme _)

/-- By induction on the names, from any walk. -/
theorem binds (names : List Token) (w : Walk) :
    Effect [] w (names.foldl (fun w name => w.bind name) w) := by
  induction names generalizing w with
  | nil => exact refl w
  | cons name rest ih => exact (bind name w).trans (ih _)

/-- The one step that records a distance, and it does so for the reference it is given. -/
theorem locate (ref : Ref) (w : Walk) : Effect [ref.id] w (w.locate ref) := by
  unfold Walk.locate
  split
  · refine ⟨id, fun id hid => ?_⟩
    rw [List.mem_singleton] at hid
    simp [Std.TreeMap.getElem?_insert, Ne.symm hid]
  · exact (refl w).mono nofun

/-- A use reports at most that it is in its own initializer, and is then located. -/
theorem use (ref : Ref) (w : Walk) : Effect [ref.id] w (w.use ref) := by
  unfold Walk.use
  dsimp only
  split
  · exact (report _ _ w).trans (locate ref _)
  · exact locate ref w

/-- Outside of a class there is a report in place of a distance. -/
theorem useThis (owner : ClassKind) (ref : Ref) (w : Walk) :
    Effect [ref.id] w (w.useThis owner ref) := by
  cases owner with
  | outside => exact (report _ _ w).mono nofun
  | plain => exact locate ref w
  | subclass => exact locate ref w

/-- Outside of a class that extends another there is a report in place of a distance. -/
theorem useSuper (owner : ClassKind) (ref : Ref) (w : Walk) :
    Effect [ref.id] w (w.useSuper owner ref) := by
  cases owner with
  | outside => exact (report _ _ w).mono nofun
  | plain => exact (report _ _ w).mono nofun
  | subclass => exact locate ref w

/-- The name of the superclass is used like any other, after a look whether it is the name of the class. -/
theorem useSuperclass (name : Token) (ref : Ref) (w : Walk) :
    Effect [ref.id] w (w.useSuperclass name ref) := by
  unfold Walk.useSuperclass
  dsimp only
  split
  · exact (report _ _ w).trans (use ref _)
  · exact use ref w

/-- A `return` is reported or let pass; it is no occurrence of a name. -/
theorem checkReturn (body : BodyKind) (keyword : Token) (hasValue : Bool) (w : Walk) :
    Effect [] w (w.checkReturn body keyword hasValue) := by
  unfold Walk.checkReturn
  split
  · exact report _ _ w
  · split
    · exact report _ _ w
    · exact refl w
  · exact refl w

/-- The scopes of a class are opened and filled without a look at anything else. -/
theorem enterClass (extending : Bool) (w : Walk) : Effect [] w (w.enterClass extending) := by
  cases extending with
  | true => exact (((enter w).trans (define _ _)).trans (enter _)).trans (define _ _)
  | false => exact (enter w).trans (define _ _)

theorem leaveClass (extending : Bool) (w : Walk) : Effect [] w (w.leaveClass extending) := by
  cases extending with
  | true => exact (leave w).trans (leave _)
  | false => exact leave w

end Effect

/-- **A walk records distances only for the occurrences of its phrase.** -/
theorem effect_of_formed {phrase : Phrase} {is : List Nat} (h : Formed phrase is) (ctx : Context)
    (w : Walk) : Effect is w (phrase.walk ctx w) := by
  induction h generalizing ctx w with
  -- Constants and ends of lists, then what has one part, then what has two parts and does nothing of its own.
  | literal | noExprs | breakLoop | noStmts | noMethods => exact .refl w
  | grouping _ ih | unary _ _ ih | get _ ih | lambda _ ih | expression _ ih | value _ ih =>
    exact ih ctx w
  | binary _ _ _ ihl ihr | logical _ _ ihl ihr | call _ _ ihl ihr | set _ _ ihl ihr
  | exprs _ _ ihl ihr | stmts _ _ ihl ihr | methods _ _ ihl ihr | ifOnly _ _ _ ihl ihr
  | whileLoop _ _ _ ihl ihr => exact (ihl ctx w).trans (ihr ctx _)
  | ternary _ _ _ ihc iht ihe | ifElse _ _ _ _ _ ihc iht ihe =>
    exact (ihc ctx w).trans ((iht ctx _).trans (ihe ctx _))
  -- The occurrences of names: here a number is used.
  | name _ => exact .use _ w
  | assign _ _ ih => exact (ih ctx w).trans (.locate _ _)
  | this _ => exact .useThis _ _ w
  | super _ => exact .useSuper _ _ w
  -- What opens and closes scopes around its parts: none of these steps finds anything.
  | unset _ => exact (Effect.declare _ w).trans (.define _ _)
  | initialized _ _ ih =>
    exact ((Effect.declare _ w).trans (ih ctx _)).trans_nil (.define _ _)
  | block _ ih =>
    exact ((Effect.enter w).trans (ih ctx _)).trans_nil (.leave _)
  | funcDecl _ _ ih => exact (Effect.bind _ w).trans (ih ctx _)
  | classDecl _ _ ih =>
    exact (((Effect.bind _ w).trans (.enterClass false _)).trans
      (ih ⟨ctx.body, .plain⟩ _)).trans_nil (.leaveClass false _)
  | @subclass name ref _ _ _ _ _ ih =>
    exact ((((Effect.bind name w).trans (.useSuperclass name ref _)).trans
      (.enterClass true _)).trans (ih ⟨ctx.body, .subclass⟩ _)).trans_nil (.leaveClass true _)
  | returned => exact .checkReturn _ _ _ w
  | returnedValue _ ih => exact (Effect.checkReturn _ _ _ w).trans (ih ctx _)
  | @function kind _ _ params _ _ _ _ ih =>
    exact (((Effect.enter w).trans (.binds params _)).trans (ih ⟨kind, ctx.owner⟩ _)).trans_nil
      (.leave _)

/-! ## Scopes

  What the walk over a phrase does to the scopes: it may add names to the innermost one, and changes no other. -/

/-- The scope has got more names, none of them `this` or `super`. -/
structure Adds (a a' : Scope) : Prop where
  keeps : ∀ x, a.contains x = true → a'.contains x = true
  plain : ∀ x, a'.contains x = true → a.contains x = true ∨ x ≠ "this" ∧ x ≠ "super"

/-- The innermost scope has got more names, the others are the same. -/
inductive Grown : List Scope → List Scope → Prop where
  | nil : Grown [] []
  | cons {a a' : Scope} {rest : List Scope} : Adds a a' → Grown (a :: rest) (a' :: rest)

namespace Grown

/-- A scope grows by no names. -/
theorem refl (scopes : List Scope) : Grown scopes scopes := by
  cases scopes with
  | nil => exact .nil
  | cons a rest => exact .cons ⟨fun _ h => h, fun _ h => .inl h⟩

/-- Scopes that are equal have grown by no names. -/
theorem of_eq {scopes scopes' : List Scope} (h : scopes' = scopes) : Grown scopes scopes' :=
  h ▸ refl scopes

/-- What has grown twice has grown: a name that is new behind the second is new, or was behind the first. -/
theorem trans {a b c : List Scope} (h : Grown a b) (h' : Grown b c) : Grown a c := by
  cases h with
  | nil => exact h'
  | cons h =>
    cases h' with
    | cons h' =>
      refine .cons ⟨fun x hx => h'.keeps x (h.keeps x hx), fun x hx => ?_⟩
      rcases h'.plain x hx with hx | hx
      · exact h.plain x hx
      · exact .inr hx

/-- The scopes around the innermost are the same. -/
theorem tail {a b : List Scope} (h : Grown a b) : b.tail = a.tail := by
  cases h <;> rfl

/-- A plain name makes a scope grow. -/
theorem of_insert {name : Token} (hn : name.Plain) (a : Scope) (standing : Standing)
    (rest : List Scope) : Grown (a :: rest) (a.insert name.lexeme standing :: rest) := by
  refine .cons ⟨fun x hx => ?_, fun x hx => ?_⟩
  · rw [Table.contains_insert, hx, Bool.or_true]
  · rw [Table.contains_insert, Bool.or_eq_true, decide_eq_true_eq] at hx
    rcases hx with rfl | hx
    · exact .inr ⟨hn.not_this, hn.not_super⟩
    · exact .inl hx

/-- To make a plain name usable adds it at most. -/
theorem define {name : Token} (hn : name.Plain) (w : Walk) :
    Grown w.scopes (w.define name.lexeme).scopes := by
  unfold Walk.define
  split
  · exact refl _
  · rename_i hs
    rw [hs]
    exact of_insert hn _ _ _

/-- To declare a plain name adds it at most. -/
theorem declare {name : Token} (hn : name.Plain) (w : Walk) :
    Grown w.scopes (w.declare name).scopes := by
  unfold Walk.declare
  split
  · exact refl _
  · split
    · exact refl _
    · rename_i hs _
      rw [hs]
      exact of_insert hn _ _ _

theorem bind {name : Token} (hn : name.Plain) (w : Walk) : Grown w.scopes (w.bind name).scopes :=
  (declare hn w).trans (define hn _)

/-- By induction on the names: all of them are plain. -/
theorem binds {names : List Token} (hn : ∀ name ∈ names, Token.Plain name) (w : Walk) :
    Grown w.scopes (names.foldl (fun w name => w.bind name) w).scopes := by
  induction names generalizing w with
  | nil => exact refl _
  | cons name rest ih =>
    rw [List.forall_mem_cons] at hn
    exact (bind hn.1 w).trans (ih hn.2 _)

end Grown

namespace Walk

/-- A name is in its own initializer if the innermost scope has it as declared and not yet usable. -/
theorem inOwnInitializer_eq (w : Walk) (x : String) :
    w.inOwnInitializer x = decide (w.scopes.head?.bind (·.get? x) = some .declared) := by
  unfold inOwnInitializer
  cases w.scopes <;> rfl

@[simp] theorem report_scopes (token : Token) (fault : ScopingFault) (w : Walk) :
    (w.report token fault).scopes = w.scopes := rfl

@[simp] theorem locate_scopes (ref : Ref) (w : Walk) : (w.locate ref).scopes = w.scopes := by
  unfold locate
  split <;> rfl

@[simp] theorem use_scopes (ref : Ref) (w : Walk) : (w.use ref).scopes = w.scopes := by
  simp only [use]
  split <;> simp

@[simp] theorem useThis_scopes (owner : ClassKind) (ref : Ref) (w : Walk) :
    (w.useThis owner ref).scopes = w.scopes := by
  cases owner <;> simp [useThis]

@[simp] theorem useSuper_scopes (owner : ClassKind) (ref : Ref) (w : Walk) :
    (w.useSuper owner ref).scopes = w.scopes := by
  cases owner <;> simp [useSuper]

@[simp] theorem useSuperclass_scopes (name : Token) (ref : Ref) (w : Walk) :
    (w.useSuperclass name ref).scopes = w.scopes := by
  simp only [useSuperclass]
  split <;> simp

@[simp] theorem checkReturn_scopes (body : BodyKind) (keyword : Token) (hasValue : Bool)
    (w : Walk) : (w.checkReturn body keyword hasValue).scopes = w.scopes := by
  unfold checkReturn
  repeat' split
  all_goals rfl

/-- The scopes around the methods of a class, innermost first. -/
def classScopes (extending : Bool) : List Scope :=
  Table.empty.insert "this" .defined ::
    if extending then [Table.empty.insert "super" .defined] else []

/-- What a class opens: the scope of `this`, and outside it that of `super` if there is one. -/
theorem enterClass_scopes (extending : Bool) (w : Walk) :
    (w.enterClass extending).scopes = classScopes extending ++ w.scopes := by
  cases extending <;> rfl

/-- If the methods leave the scopes as they found them the class does as well. -/
theorem leaveClass_scopes (extending : Bool) {w w' : Walk}
    (h : w'.scopes = (w.enterClass extending).scopes) :
    (w'.leaveClass extending).scopes = w.scopes := by
  rw [enterClass_scopes] at h
  cases extending with
  | true => simp [leaveClass, leave, h, classScopes]
  | false => simp [leaveClass, leave, h, classScopes]

end Walk

/-- The innermost scope has grown by the names of statements at most. -/
def Growth (ctx : Context) (phrase : Phrase) (w : Walk) : Prop :=
  Grown w.scopes (phrase.walk ctx w).scopes ∧
    (phrase.IsQuiet → (phrase.walk ctx w).scopes = w.scopes)

/-- Scopes that stay the same have grown by nothing. -/
theorem Growth.of_eq {ctx : Context} {phrase : Phrase} {w : Walk}
    (h : (phrase.walk ctx w).scopes = w.scopes) : Growth ctx phrase w :=
  ⟨.of_eq h, fun _ => h⟩

/-- A declaration, of which nothing more is said than that the innermost scope has grown. -/
theorem Growth.of_grown {ctx : Context} {phrase : Phrase} {w : Walk}
    (h : Grown w.scopes (phrase.walk ctx w).scopes) (hq : ¬ phrase.IsQuiet) :
    Growth ctx phrase w :=
  ⟨h, fun h' => absurd h' hq⟩

/-- **A walk leaves the scopes as they are, but for the names that statements add to the innermost
    one.** -/
theorem growth_of_formed {phrase : Phrase} {is : List Nat} (h : Formed phrase is) (ctx : Context)
    (w : Walk) : Growth ctx phrase w := by
  induction h generalizing ctx w with
  | literal | noExprs | breakLoop | noStmts | noMethods => exact .of_eq rfl
  | grouping _ ih | unary _ _ ih | get _ ih | lambda _ ih | expression _ ih | value _ ih =>
    exact .of_eq ((ih ctx w).2 trivial)
  | binary _ _ _ ihl ihr | logical _ _ ihl ihr | call _ _ ihl ihr | set _ _ ihl ihr
  | exprs _ _ ihl ihr | methods _ _ ihl ihr =>
    exact .of_eq (((ihr ctx _).2 trivial).trans ((ihl ctx w).2 trivial))
  | ternary _ _ _ ihc iht ihe =>
    exact .of_eq (((ihe ctx _).2 trivial).trans (((iht ctx _).2 trivial).trans
      ((ihc ctx w).2 trivial)))
  | name _ => exact .of_eq (Walk.use_scopes _ w)
  | assign _ _ ih => exact .of_eq ((Walk.locate_scopes _ _).trans ((ih ctx w).2 trivial))
  | this _ => exact .of_eq (Walk.useThis_scopes _ _ w)
  | super _ => exact .of_eq (Walk.useSuper_scopes _ _ w)
  | unset hn => exact .of_grown ((Grown.declare hn w).trans (.define hn _)) id
  | @initialized name _ _ hn _ ih =>
    have hv := (ih ctx (w.declare name)).2 trivial
    exact .of_grown (((Grown.declare hn w).trans (.of_eq hv)).trans (.define hn _)) id
  -- The new scope of a block grows, and is thrown away: what is left are the scopes around it.
  | block _ ih => exact .of_eq (ih ctx w.enter).1.tail
  | ifOnly ht _ _ ihc iht =>
    exact .of_eq (((iht ctx _).2 ht).trans ((ihc ctx w).2 trivial))
  | ifElse ht he _ _ _ ihc iht ihe =>
    exact .of_eq (((ihe ctx _).2 he).trans (((iht ctx _).2 ht).trans ((ihc ctx w).2 trivial)))
  | whileLoop hb _ _ ihc ihb =>
    exact .of_eq (((ihb ctx _).2 hb).trans ((ihc ctx w).2 trivial))
  | funcDecl hn _ ih =>
    exact .of_grown ((Grown.bind hn w).trans (.of_eq ((ih ctx _).2 trivial))) id
  | @classDecl name _ _ hn _ ih =>
    -- Methods are quiet, so that the class closes the very scopes that it has opened.
    have hm := (ih ⟨ctx.body, .plain⟩ ((w.bind name).enterClass false)).2 trivial
    exact .of_grown ((Grown.bind hn w).trans (.of_eq (Walk.leaveClass_scopes false hm))) id
  | @subclass name ref _ _ hn _ _ ih =>
    have hm := (ih ⟨ctx.body, .subclass⟩
      (((w.bind name).useSuperclass name ref).enterClass true)).2 trivial
    have hw := (Walk.leaveClass_scopes true hm).trans (Walk.useSuperclass_scopes name ref _)
    exact .of_grown ((Grown.bind hn w).trans (.of_eq hw)) id
  | returned => exact .of_eq (Walk.checkReturn_scopes _ _ _ w)
  | returnedValue _ ih =>
    exact .of_eq (((ih ctx _).2 trivial).trans (Walk.checkReturn_scopes _ _ _ w))
  | stmts _ _ ihs ihss =>
    exact .of_grown ((ihs ctx w).1.trans (ihss ctx _).1) id
  -- The parameters and the statements of the body grow the scope of the function, which is thrown away.
  | @function kind _ _ _ _ _ hp _ ih =>
    exact .of_eq ((Grown.binds hp w.enter).trans (ih ⟨kind, ctx.owner⟩ _).1).tail

end Scope

end Lox
