import Lox.Proofs.Scope.Matched

/-!
  What is wrong with a spot, and what is reported.

  What is wrong with the names at a spot is told by the spot alone: by the phrase and what surrounds it
  (`Offence`, `Spot.Offends`).  This is what a walk reports, neither more nor less, whatever else is wrong with
  the program (`reported_iff`).

  The route:

  1. `Brings P u v` says that the walk from `u` to `v` reports exactly the diagnostics with the property `P`,
     besides those that were there.  It composes to a disjunction, and steps that report nothing can stand
     before and behind.
  2. Each small step of a walk brings what its own offence says: `Walk.declare` a name that the scope has,
     `Walk.use` a name that waits for its value, `Walk.useThis` and `Walk.useSuper` a word out of place,
     `Walk.checkReturn` a `return` out of place.  The scopes match the surroundings (`Matches`), so that what
     the walk looks up is what is written.
  3. `ReportsOn ps` is `Brings` for all that is wrong within a list of spots.  `walk_reports` is the induction
     over spots: a phrase brings its own offences and those of its parts.

  Since no hypothesis asks for a clean program, one offence never hides another.
-/

namespace Lox.Scope

/-! ## Offences -/

/-- The innermost scope, if there is one, has the name already. -/
def Surroundings.Has (σ : Surroundings) (name : Token) : Prop :=
  ∃ scope ∈ σ.scopes.head?, name.lexeme ∈ scope

/-- What is wrong with the names of a phrase in these surroundings, the parts of the phrase apart. -/
inductive Offence (σ : Surroundings) : Phrase → Diagnostic → Prop where
  | variable {name : Token} {e : Option Expr} : σ.Has name →
    Offence σ (.stmt (.varDecl name e)) (.scoping name .alreadyDeclared)
  | function {name keyword : Token} {params : List Token} {body : List Stmt} : σ.Has name →
    Offence σ (.stmt (.funcDecl (.mk (some name) keyword params body))) (.scoping name .alreadyDeclared)
  | class {name : Token} {superclass : Option Ref} {ds : List FunctionDecl} : σ.Has name →
    Offence σ (.stmt (.classDecl name superclass ds)) (.scoping name .alreadyDeclared)
  | parameter {kind : BodyKind} {d : FunctionDecl} {before after : List Token} {name : Token} :
    d.params = before ++ name :: after → name.lexeme ∈ before.map Token.lexeme →
    Offence σ (.function kind d) (.scoping name .alreadyDeclared)
  | initializer {ref : Ref} : σ.Awaits ref.name.lexeme →
    Offence σ (.expr (.variable ref)) (.scoping ref.name .ownInitializer)
  | superclass {name : Token} {ref : Ref} {ds : List FunctionDecl} : ref.name.lexeme = name.lexeme →
    Offence σ (.stmt (.classDecl name (some ref) ds)) (.scoping ref.name .selfInheritance)
  | this {ref : Ref} : σ.owner = .outside →
    Offence σ (.expr (.this ref)) (.scoping ref.name .thisOutsideClass)
  | super {ref : Ref} {method : Token} : σ.owner = .outside →
    Offence σ (.expr (.super ref method)) (.scoping ref.name .superOutsideClass)
  | superPlain {ref : Ref} {method : Token} : σ.owner = .plain →
    Offence σ (.expr (.super ref method)) (.scoping ref.name .superWithoutSuperclass)
  | return {keyword : Token} {e : Option Expr} : σ.body = .topLevel →
    Offence σ (.stmt (.returnValue keyword e)) (.scoping keyword .topLevelReturn)
  | value {keyword : Token} {e : Expr} : σ.body = .initializer →
    Offence σ (.stmt (.returnValue keyword (some e))) (.scoping keyword .initializerReturn)

/-- What is wrong with the names at a spot, its parts apart. -/
def Spot.Offends (p : Spot) (d : Diagnostic) : Prop := Offence p.around p.phrase d

/-- Something is wrong within the spot. -/
def Spot.Contains (p : Spot) (d : Diagnostic) : Prop := ∃ q, p.Holds q ∧ q.Offends d

/-- What is wrong within a spot is wrong with the spot itself, or within one of its parts. -/
theorem Spot.contains_iff {p : Spot} {d : Diagnostic} :
    p.Contains d ↔ p.Offends d ∨ ∃ q ∈ p.parts, q.Contains d := by
  constructor
  · rintro ⟨q, hq, hd⟩
    rcases hq.cases_head with rfl | ⟨part, hpart, hq⟩
    · exact .inl hd
    · exact .inr ⟨part, hpart, q, hq, hd⟩
  · rintro (hd | ⟨part, hpart, q, hq, hd⟩)
    · exact ⟨p, .refl, hd⟩
    · exact ⟨q, .head hpart hq, hd⟩

/-! ## Reports -/

/-- Of the two walks the second has reported what the first has, and besides exactly these. -/
def Brings (P : Diagnostic → Prop) (w w' : Walk) : Prop :=
  ∀ d, d ∈ w'.problems ↔ d ∈ w.problems ∨ P d

namespace Brings

variable {P Q : Diagnostic → Prop} {u v w : Walk}

/-- One walk after the other brings what either brings. -/
theorem trans (h : Brings P u v) (h' : Brings Q v w) : Brings (fun d => P d ∨ Q d) u w :=
  fun d => by rw [h' d, h d, or_assoc]

/-- What is brought may be described in any equivalent way. -/
theorem congr (h : Brings P u v) (hPQ : ∀ d, P d ↔ Q d) : Brings Q u v :=
  fun d => by rw [h d, hPQ d]

/-- Where nothing is reported. -/
theorem of_problems (h : v.problems = u.problems) (hP : ∀ d, ¬ P d) : Brings P u v :=
  fun d => by simp [h, hP d]

/-- A step behind it that reports nothing changes nothing. -/
theorem behind (h : Brings P u v) (hw : w.problems = v.problems) : Brings P u w :=
  fun d => by rw [hw, h d]

/-- Nor does one before it. -/
theorem before (hv : v.problems = u.problems) (h : Brings P v w) : Brings P u w :=
  fun d => by rw [h d, hv]

/-- A report brings what is reported. -/
theorem report (token : Token) (fault : ScopingFault) (w : Walk) :
    Brings (· = .scoping token fault) w (w.report token fault) :=
  fun d => by simp [Walk.report]

/-- Where one thing is wrong, and it is reported. -/
theorem report_only {token : Token} {fault : ScopingFault} (hP : P (.scoping token fault))
    (honly : ∀ d, P d → d = .scoping token fault) (w : Walk) : Brings P w (w.report token fault) :=
  (report token fault w).congr fun d => ⟨fun hd => hd ▸ hP, honly d⟩

end Brings

/-- Of what a walk over these spots reports each is wrong within one of them, and all that is wrong there
    is reported. -/
structure ReportsOn (ps : List Spot) (w w' : Walk) : Prop where
  brings : Brings (fun d => ∃ p ∈ ps, p.Contains d) w w'

namespace ReportsOn

variable {p : Spot} {ps : List Spot} {u v w : Walk}

/-- Over no spots nothing is reported. -/
theorem nil (w : Walk) : ReportsOn [] w w := ⟨.of_problems rfl (by simp)⟩

/-- A spot, and then the others. -/
theorem cons (h : ReportsOn [p] u v) (h' : ReportsOn ps v w) : ReportsOn (p :: ps) u w :=
  ⟨(h.brings.trans h'.brings).congr fun d => by simp⟩

theorem behind (h : ReportsOn ps u v) (hw : w.problems = v.problems) : ReportsOn ps u w :=
  ⟨h.brings.behind hw⟩

theorem before (hv : v.problems = u.problems) (h : ReportsOn ps v w) : ReportsOn ps u w :=
  ⟨h.brings.before hv⟩

/-- What is wrong with the spot itself is reported first, then what is wrong with its parts. -/
theorem whole (h : Brings p.Offends u v) (h' : ReportsOn p.parts v w) : ReportsOn [p] u w :=
  ⟨(h.trans h'.brings).congr fun d => by simp [p.contains_iff]⟩

/-- Nothing is wrong with the spot itself. -/
theorem parts (hp : ∀ d, ¬ p.Offends d) (h : ReportsOn p.parts u w) : ReportsOn [p] u w :=
  whole (.of_problems rfl hp) h

end ReportsOn

/-! ## Steps of a walk

  Which reports a single step makes, and when. -/

section Steps

variable {σ : Surroundings} {w : Walk}

/-- The innermost scope of the walk has a name if the innermost one of the surroundings has it. -/
theorem head_iff {scopes : List Scope} {names : List (List String)} (h : List.Forall₂ Names scopes names)
    (x : String) : (∃ scope ∈ scopes.head?, scope.contains x = true) ↔ ∃ own ∈ names.head?, x ∈ own := by
  cases h with
  | nil => exact ⟨nofun, nofun⟩
  | cons hscope _ =>
    constructor
    · rintro ⟨_, ⟨⟩, hx⟩
      exact ⟨_, rfl, (hscope x).mp hx⟩
    · rintro ⟨_, ⟨⟩, hx⟩
      exact ⟨_, rfl, (hscope x).mpr hx⟩

/-- A declaration reports a name that the innermost scope has, and nothing else. -/
theorem brings_declare (h : σ.Matches w.scopes) (name : Token) :
    Brings (fun d => d = .scoping name .alreadyDeclared ∧ σ.Has name) w (w.declare name) := by
  have hhead := head_iff h.named name.lexeme
  unfold Walk.declare
  split
  · rename_i hs
    rw [hs] at hhead
    exact .of_problems rfl fun d hd => nomatch hhead.mpr hd.2
  · rename_i scope outer hs
    rw [hs] at hhead
    split
    · rename_i hc
      have hhas : σ.Has name := hhead.mp ⟨scope, rfl, hc⟩
      exact (Brings.report name .alreadyDeclared w).congr fun d => (and_iff_left hhas).symm
    · rename_i hc
      refine .of_problems rfl fun d hd => ?_
      obtain ⟨_, ⟨⟩, hc'⟩ := hhead.mpr hd.2
      exact hc hc'

/-- To make a name usable reports nothing. -/
theorem define_problems (name : String) (w : Walk) : (w.define name).problems = w.problems := by
  unfold Walk.define
  split <;> rfl

/-- Nor does it behind a declaration. -/
theorem brings_bind (h : σ.Matches w.scopes) (name : Token) :
    Brings (fun d => d = .scoping name .alreadyDeclared ∧ σ.Has name) w (w.bind name) :=
  (brings_declare h name).behind (define_problems _ _)

/-- To record a distance reports nothing. -/
theorem locate_problems (ref : Ref) (w : Walk) : (w.locate ref).problems = w.problems := by
  unfold Walk.locate
  split <;> rfl

/-- A use reports a name that waits for its value, and nothing else. -/
theorem brings_use (h : σ.Matches w.scopes) (ref : Ref) :
    Brings (fun d => d = .scoping ref.name .ownInitializer ∧ σ.Awaits ref.name.lexeme) w (w.use ref) := by
  have hwaits := h.waits ref.name.lexeme
  have hown := w.inOwnInitializer_eq ref.name.lexeme
  unfold Walk.use
  -- The report comes before the distance is recorded, which happens either way.
  refine Brings.behind ?_ (locate_problems ref _)
  split
  · rename_i hin
    rw [hin] at hown
    have hawaits := hwaits.mp (of_decide_eq_true hown.symm)
    exact (Brings.report ref.name .ownInitializer w).congr fun d => (and_iff_left hawaits).symm
  · rename_i hin
    rw [Bool.not_eq_true] at hin
    rw [hin] at hown
    exact .of_problems rfl fun d hd => of_decide_eq_false hown.symm (hwaits.mpr hd.2)

theorem enterClass_problems (extending : Bool) (w : Walk) :
    (w.enterClass extending).problems = w.problems := by
  cases extending <;> rfl

theorem leaveClass_problems (extending : Bool) (w : Walk) :
    (w.leaveClass extending).problems = w.problems := by
  cases extending <;> rfl

/-- A parameter is reported if one before it has its name. -/
theorem brings_params (h : σ.Matches w.scopes) (hσ : σ.Calm) {own : List String} {outer : List (List String)}
    (hown : σ.scopes = own :: outer) (params : List Token) :
    Brings (fun d => ∃ before name after, params = before ++ name :: after ∧
      d = .scoping name .alreadyDeclared ∧ name.lexeme ∈ own ++ before.map Token.lexeme)
      w (params.foldl (fun w name => w.bind name) w) := by
  induction params generalizing σ w own with
  | nil => exact .of_problems rfl fun d ⟨before, name, after, hparams, _⟩ => by simp at hparams
  | cons param params ih =>
    have hbind : (σ.gains [param]).Matches (w.bind param).scopes := by
      rw [Walk.bind_scopes]
      exact h.gains hσ [param]
    have hscopes : (σ.gains [param]).scopes = (own ++ [param.lexeme]) :: outer := by
      rw [Surroundings.gains, hown]
      rfl
    -- The first parameter goes in front of those that a later one may repeat.
    refine ((brings_bind h param).trans (ih hbind hσ hscopes)).congr fun d => ?_
    constructor
    · rintro (⟨rfl, hhas⟩ | ⟨before, name, after, rfl, rfl, hmem⟩)
      · rw [Surroundings.Has, hown] at hhas
        obtain ⟨_, ⟨⟩, hmem⟩ := hhas
        exact ⟨[], param, params, rfl, rfl, List.mem_append_left _ hmem⟩
      · exact ⟨param :: before, name, after, rfl, rfl, by simpa using hmem⟩
    · rintro ⟨before, name, after, hparams, rfl, hmem⟩
      cases before with
      | nil =>
        obtain ⟨rfl, rfl⟩ := List.cons_eq_cons.mp hparams
        refine .inl ⟨rfl, own, by rw [hown]; rfl, by simpa using hmem⟩
      | cons first before =>
        obtain ⟨rfl, rfl⟩ := List.cons_eq_cons.mp hparams
        exact .inr ⟨before, name, after, rfl, rfl, by simpa using hmem⟩

/-- A class that extends itself is reported behind what is reported of its name. -/
theorem brings_superclass (name : Token) (ref : Ref) (w : Walk) :
    Brings (fun d => d = .scoping ref.name .selfInheritance ∧ ref.name.lexeme = name.lexeme) w
      (w.checkSuperclass name ref) := by
  unfold Walk.checkSuperclass
  split
  · rename_i hself
    exact (Brings.report ref.name .selfInheritance w).congr fun d => (and_iff_left hself).symm
  · rename_i hself
    exact .of_problems rfl fun d hd => hself hd.2

/-! ## Steps of a spot

  The same for each kind of phrase, as far as it is the phrase itself that is at fault and not one of its parts. -/

/-- Of a variable only this can be wrong. -/
theorem brings_variable (h : σ.Matches w.scopes) (ref : Ref) :
    Brings (Spot.Offends ⟨σ, .expr (.variable ref)⟩) w (w.use ref) := by
  refine (brings_use h ref).congr fun d => ⟨?_, ?_⟩
  · rintro ⟨rfl, hawaits⟩
    exact .initializer hawaits
  · intro hd
    cases hd with
    | initializer hawaits => exact ⟨rfl, hawaits⟩

/-- Outside of all classes `this` is reported; in a class it is not. -/
theorem brings_this (ref : Ref) (w : Walk) :
    Brings (Spot.Offends ⟨σ, .expr (.this ref)⟩) w (w.useThis σ.owner ref) := by
  cases ho : σ.owner with
  | outside =>
    refine .report_only (.this ho) (fun d hd => ?_) w
    cases hd with
    | this _ => rfl
  | plain | subclass =>
    refine .of_problems (locate_problems ref w) ?_
    intro d hd
    cases hd with
    | this howner => exact nomatch ho.symm.trans howner

/-- Each owner has its own message, and a class that extends another has none. -/
theorem brings_super (ref : Ref) (method : Token) (w : Walk) :
    Brings (Spot.Offends ⟨σ, .expr (.super ref method)⟩) w (w.useSuper σ.owner ref) := by
  cases ho : σ.owner with
  | outside =>
    refine .report_only (.super ho) (fun d hd => ?_) w
    cases hd with
    | super _ => rfl
    | superPlain howner => exact nomatch ho.symm.trans howner
  | plain =>
    refine .report_only (.superPlain ho) (fun d hd => ?_) w
    cases hd with
    | super howner => exact nomatch ho.symm.trans howner
    | superPlain _ => rfl
  | subclass =>
    refine .of_problems (locate_problems ref w) ?_
    intro d hd
    cases hd with
    | super howner | superPlain howner => exact nomatch ho.symm.trans howner

/-- Of a variable declaration it is the name that can be wrong. -/
theorem brings_varDecl (h : σ.Matches w.scopes) (name : Token) (e : Option Expr) :
    Brings (Spot.Offends ⟨σ, .stmt (.varDecl name e)⟩) w (w.declare name) := by
  refine (brings_declare h name).congr fun d => ⟨?_, ?_⟩
  · rintro ⟨rfl, hhas⟩
    exact .variable hhas
  · intro hd
    cases hd with
    | «variable» hhas => exact ⟨rfl, hhas⟩

/-- Of a function declaration as well. -/
theorem brings_funcDecl (h : σ.Matches w.scopes) (name keyword : Token) (params : List Token)
    (body : List Stmt) :
    Brings (Spot.Offends ⟨σ, .stmt (.funcDecl (.mk (some name) keyword params body))⟩) w (w.bind name) := by
  refine (brings_bind h name).congr fun d => ⟨?_, ?_⟩
  · rintro ⟨rfl, hhas⟩
    exact .function hhas
  · intro hd
    cases hd with
    | function hhas => exact ⟨rfl, hhas⟩

/-- And of a class without a superclass. -/
theorem brings_classDecl (h : σ.Matches w.scopes) (name : Token) (ds : List FunctionDecl) :
    Brings (Spot.Offends ⟨σ, .stmt (.classDecl name none ds)⟩) w (w.bind name) := by
  refine (brings_bind h name).congr fun d => ⟨?_, ?_⟩
  · rintro ⟨rfl, hhas⟩
    exact .class hhas
  · intro hd
    cases hd with
    | «class» hhas => exact ⟨rfl, hhas⟩

/-- Of a class that extends itself that is reported besides. -/
theorem brings_subclass (h : σ.Matches w.scopes) (name : Token) (ref : Ref) (ds : List FunctionDecl) :
    Brings (Spot.Offends ⟨σ, .stmt (.classDecl name (some ref) ds)⟩) w
      ((w.bind name).checkSuperclass name ref) := by
  refine ((brings_bind h name).trans (brings_superclass name ref _)).congr fun d => ⟨?_, ?_⟩
  · rintro (⟨rfl, hhas⟩ | ⟨rfl, hself⟩)
    · exact .class hhas
    · exact .superclass hself
  · intro hd
    cases hd with
    | «class» hhas => exact .inl ⟨rfl, hhas⟩
    | superclass hself => exact .inr ⟨rfl, hself⟩

/-- A `return` outside of all functions is reported, and if not, one with a value in an initializer. -/
theorem brings_return (keyword : Token) (e : Option Expr) (w : Walk) :
    Brings (Spot.Offends ⟨σ, .stmt (.returnValue keyword e)⟩) w
      (w.checkReturn σ.body keyword e.isSome) := by
  cases hb : σ.body with
  | topLevel =>
    -- A value that is returned from no function is not reported besides.
    refine .report_only (.return hb) (fun d hd => ?_) w
    cases hd with
    | «return» _ => rfl
    | value hbody => exact nomatch hb.symm.trans hbody
  | initializer =>
    cases e with
    | none =>
      refine .of_problems rfl ?_
      intro d hd
      cases hd with
      | «return» hbody => exact nomatch hb.symm.trans hbody
    | some e =>
      refine .report_only (.value hb) (fun d hd => ?_) w
      cases hd with
      | «return» hbody => exact nomatch hb.symm.trans hbody
      | value _ => rfl
  | function | method =>
    refine .of_problems rfl ?_
    intro d hd
    cases hd with
    | «return» hbody | value hbody => exact nomatch hb.symm.trans hbody

/-- A parameter that repeats an earlier one is reported. -/
theorem brings_function (h : σ.Matches w.scopes) (kind : BodyKind) (d : FunctionDecl) :
    Brings (Spot.Offends ⟨σ, .function kind d⟩) w (enterFunction d.params w) := by
  have hparams := brings_params (w := w.enter) h.inBlock rfl rfl d.params
  refine (Brings.before rfl hparams).congr fun found => ⟨?_, ?_⟩
  · rintro ⟨before, name, after, hsplit, rfl, hmem⟩
    exact .parameter hsplit hmem
  · intro hd
    cases hd with
    | parameter hsplit hmem => exact ⟨_, _, _, hsplit, rfl, hmem⟩

end Steps

/-- **A walk reports what is wrong within the spot, neither more nor less.** -/
theorem walk_reports (p : Spot) (w : Walk) (h : Reached p w) :
    ReportsOn [p] w (p.phrase.walk p.around.toContext w) := by
  induction p using Spot.induction generalizing w with
  | h p ih =>
    -- The induction asks for no clean walk: a part is reached whatever has been reported before it.
    have hparts := h.parts
    obtain ⟨σ, phrase⟩ := p
    -- As `Reached.parts` goes from a spot to its parts, so the walk does: with the spot reached, each of the
    -- parts is. Expressions with parts offend nothing themselves.
    match phrase with
    | .expr (.literal _) | .exprs [] | .stmts [] | .methods [] | .stmt (.breakLoop _) =>
      exact .parts (fun _ => nofun) (.nil w)
    | .expr (.grouping _) | .expr (.unary _ _) | .expr (.get _ _) | .stmt (.expression _)
    | .stmt (.value _) | .expr (.lambda _) => exact .parts (fun _ => nofun) (ih _ (.head _) w hparts.1)
    | .expr (.binary _ _ _) | .expr (.logical _ _ _) | .expr (.set _ _ _) | .expr (.call _ _ _)
    | .exprs (_ :: _) | .stmt (.ifElse _ _ none) | .stmt (.whileLoop _ _) | .stmts (_ :: _)
    | .methods (_ :: _) =>
      exact .parts (fun _ => nofun) (.cons (ih _ (.head _) w hparts.1) (ih _ (.tail _ (.head _)) _ hparts.2.1))
    | .expr (.ternary _ _ _) | .stmt (.ifElse _ _ (some _)) =>
      exact .parts (fun _ => nofun) (.cons (ih _ (.head _) w hparts.1)
        (.cons (ih _ (.tail _ (.head _)) _ hparts.2.1) (ih _ (.tail _ (.tail _ (.head _))) _ hparts.2.2.1)))
    | .expr (.variable ref) => exact .whole (brings_variable h.scopes ref) (.nil _)
    | .expr (.this ref) => exact .whole (brings_this ref w) (.nil _)
    | .expr (.super ref method) => exact .whole (brings_super ref method w) (.nil _)
    | .expr (.assign ref _) =>
      exact .parts (fun _ => nofun) ((ih _ (.head _) w hparts.1).behind (locate_problems ref _))
    | .stmt (.varDecl name none) =>
      exact .whole (brings_varDecl h.scopes name none) ((ReportsOn.nil _).behind (define_problems _ _))
    | .stmt (.varDecl name (some e)) =>
      exact .whole (brings_varDecl h.scopes name (some e))
        ((ih _ (.head _) _ hparts.1).behind (define_problems _ _))
    | .stmt (.block _) =>
      have hbody := ReportsOn.before (u := w) (v := w.enter) rfl (ih _ (.head _) w.enter hparts.1)
      exact .parts (fun _ => nofun) (hbody.behind rfl)
    | .stmt (.funcDecl (.mk none _ _ _)) => exact .parts (fun _ => nofun) (ih _ (.head _) w hparts.1)
    | .stmt (.funcDecl (.mk (some name) keyword params body)) =>
      exact .whole (brings_funcDecl h.scopes name keyword params body) (ih _ (.head _) _ hparts.1)
    | .stmt (.classDecl name none ds) =>
      have hmethods := ((ih _ (.head _) _ hparts.1).before (enterClass_problems false _)).behind
        (leaveClass_problems false _)
      exact .whole (brings_classDecl h.scopes name ds) hmethods
    | .stmt (.classDecl name (some ref) ds) =>
      -- The superclass is read as a part of its own, behind the check of its name.
      have hmethods := ((ih _ (.tail _ (.head _)) _ hparts.2.1).before (enterClass_problems true _)).behind
        (leaveClass_problems true _)
      exact .whole (brings_subclass h.scopes name ref ds) (.cons (ih _ (.head _) _ hparts.1) hmethods)
    | .stmt (.returnValue keyword none) => exact .whole (brings_return keyword none w) (.nil _)
    | .stmt (.returnValue keyword (some e)) =>
      exact .whole (brings_return keyword (some e) w) (ih _ (.head _) _ hparts.1)
    | .function kind (.mk name keyword params body) =>
      exact .whole (brings_function h.scopes kind (.mk name keyword params body))
        ((ih _ (.head _) _ hparts.1).behind rfl)

/-- **What is reported of a program is what is wrong with it.** -/
theorem reported_iff (program : List Stmt) (d : Diagnostic) :
    d ∈ (resolve program).diagnostics ↔ ∃ p : Spot, p.LiesIn program ∧ p.Offends d := by
  have hreports := (walk_reports (.program program) .start (.program program)).brings d
  simp only [List.mem_singleton, exists_eq_left] at hreports
  show d ∈ (walkStmts .topLevel program .start).problems.toList ↔ _
  rw [Array.mem_toList_iff]
  exact hreports.trans (or_iff_right (by simp [Walk.start]))

end Lox.Scope
