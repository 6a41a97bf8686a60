import Lox.Proofs.Copies.Numbering
import Lox.Proofs.Scope.Keeping
import Lox.Proofs.Scope.Recorded

/-!
  The distance that is recorded for an occurrence.

  How far it is from an occurrence of a name to the scope that has declared the name is written in what
  surrounds the occurrence (`Surroundings.distance?`): so many scopes lie inside the innermost one that has the
  name.  This is what a walk records for it, unless it is a `this` or a `super` out of place, of which nothing
  is recorded (`Surroundings.expected?`).

  The route:

  1. `Expr.occurrence?` and `Spot.occurrence?` say which spots are occurrences.  The numbers of the occurrences
     in a spot are its own and those of its parts (`numbersOf`), since a spot is put together from its parts.
  2. `Finds` is what is to be shown of a walk over a list of spots: it records something for the occurrences
     in them only, and for each of these what is expected, if no two have one number and nothing has been
     recorded for them before.  It composes (`Finds.cons`): what the first spot has found the second leaves
     alone, because their numbers are apart.
  3. `walk_finds` is then the induction over spots.  The case of an occurrence compares the search of the walk
     with the surroundings, which have the same names in the same order (`distance?_matches`).

  `recorded_distances_lexical` puts it together for a program that has been read, of which it is known that no
  two occurrences have the same number.
-/

namespace Lox

/-- The occurrence of a name that an expression is, the parts of the expression apart. -/
def Expr.occurrence? : Expr → Option Ref
  | .variable ref | .assign ref _ | .this ref | .super ref _ => some ref
  | _ => none

namespace Scope

namespace Surroundings

/-- The expression is a `this` outside of all classes, or a `super` in no class that extends another. -/
def Misuses (σ : Surroundings) : Expr → Prop
  | .this _ => σ.owner = .outside
  | .super _ _ => σ.owner ≠ .subclass
  | _ => False

instance (σ : Surroundings) (e : Expr) : Decidable (σ.Misuses e) := by
  cases e <;> unfold Misuses <;> infer_instance

/-- How many scopes lie between a place and the innermost one that has got the name by then. -/
def distance? (σ : Surroundings) (x : String) : Option Nat := σ.scopes.findIdx? fun names => decide (x ∈ names)

/-- What is to be recorded of an occurrence. -/
def expected? (σ : Surroundings) (e : Expr) (ref : Ref) : Option Nat :=
  if σ.Misuses e then none else σ.distance? ref.name.lexeme

/-- Of an occurrence out of place nothing is recorded. -/
theorem expected?_of_misuse {σ : Surroundings} {e : Expr} (h : σ.Misuses e) (ref : Ref) :
    σ.expected? e ref = none := if_pos h

/-- Of any other the distance is recorded, if there is one. -/
theorem expected?_of_use {σ : Surroundings} {e : Expr} (h : ¬ σ.Misuses e) (ref : Ref) :
    σ.expected? e ref = σ.distance? ref.name.lexeme := if_neg h

/-- The distance is the number of scopes inside the innermost one that has the name. -/
theorem distance?_eq_some {σ : Surroundings} {x : String} {d : Nat} : σ.distance? x = some d ↔
    ∃ inner scope outer, σ.scopes = inner ++ scope :: outer ∧ x ∈ scope ∧ (∀ names ∈ inner, x ∉ names) ∧
      inner.length = d := by
  unfold distance?
  generalize σ.scopes = scopes
  induction scopes generalizing d with
  | nil => simp
  | cons names scopes ih =>
    rw [List.findIdx?_cons]
    by_cases hx : x ∈ names
    · -- The name is in the innermost scope, so nothing lies between.
      rw [if_pos (decide_eq_true hx), Option.some.injEq]
      constructor
      · rintro rfl
        exact ⟨[], names, scopes, rfl, hx, nofun, rfl⟩
      · rintro ⟨inner, scope, outer, hscopes, -, hinner, rfl⟩
        cases inner with
        | nil => rfl
        | cons first inner =>
          obtain ⟨rfl, -⟩ := List.cons_eq_cons.mp hscopes
          exact absurd hx (hinner names List.mem_cons_self)
    · rw [if_neg (by simpa using hx), Option.map_eq_some_iff]
      constructor
      · rintro ⟨d, hd, rfl⟩
        obtain ⟨inner, scope, outer, rfl, hmem, hinner, rfl⟩ := ih.mp hd
        exact ⟨names :: inner, scope, outer, rfl, hmem, List.forall_mem_cons.mpr ⟨hx, hinner⟩, rfl⟩
      · rintro ⟨inner, scope, outer, hscopes, hmem, hinner, rfl⟩
        cases inner with
        | nil =>
          obtain ⟨rfl, -⟩ := List.cons_eq_cons.mp hscopes
          exact absurd hmem hx
        | cons first inner =>
          obtain ⟨rfl, hrest⟩ := List.cons_eq_cons.mp hscopes
          have hinner := (List.forall_mem_cons.mp hinner).2
          exact ⟨inner.length, ih.mpr ⟨inner, scope, outer, hrest, hmem, hinner, rfl⟩, rfl⟩

end Surroundings

/-! ## Occurrences -/

/-- The occurrence of a name at a spot, its parts apart. -/
def Spot.occurrence? (p : Spot) : Option Ref :=
  match p.phrase with
  | .expr e => e.occurrence?
  | _ => none

/-- The numbers of the occurrences within spots. -/
def numbersOf (ps : List Spot) : List Nat := ps.flatMap (·.phrase.numbers)

/-- An expression that is no occurrence has the numbers of its parts. -/
theorem expr_numbers {σ : Surroundings} {e : Expr} (h : e.occurrence? = none) :
    e.numbers = numbersOf (exprParts σ e) := by
  cases e with
  | «variable» _ | assign _ _ | this _ | super _ _ => cases h
  | _ => simp [numbersOf, exprParts, Phrase.numbers, Expr.numbers]

/-- A statement is no occurrence: it has the numbers of its parts. -/
theorem stmt_numbers (σ : Surroundings) (s : Stmt) : s.numbers = numbersOf (stmtParts σ s) := by
  match s with
  | .varDecl _ none | .breakLoop _ | .returnValue _ none => rfl
  | .expression _ | .value _ | .varDecl _ (some _) | .returnValue _ (some _) | .block _ | .ifElse _ _ none
  | .ifElse _ _ (some _) | .whileLoop _ _ | .funcDecl _ | .classDecl _ none _ | .classDecl _ (some _) _ =>
    simp [numbersOf, stmtParts, Phrase.numbers, Stmt.numbers, Expr.numbers, optionalNumbers, elseNumbers]

/-- Where no name occurs at the spot itself all occurrences are within its parts. -/
theorem numbers_parts {p : Spot} (h : p.occurrence? = none) : p.phrase.numbers = numbersOf p.parts := by
  obtain ⟨σ, phrase⟩ := p
  -- The cases are sorted by what the walk does: nothing, one part, two or three parts in a row, an
  -- occurrence, and then what opens scopes or declares names around its parts, which finds nothing by itself.
  match phrase with
  | .expr e => exact expr_numbers h
  | .stmt s => exact stmt_numbers σ s
  | .exprs [] | .stmts [] | .methods [] => rfl
  | .exprs (_ :: _) | .stmts (_ :: _) | .methods (_ :: _) =>
    simp [numbersOf, Spot.parts, Phrase.numbers, exprsNumbers, stmtsNumbers, methodsNumbers]
  | .function _ (.mk _ _ _ _) =>
    simp [numbersOf, Spot.parts, Phrase.numbers, FunctionDecl.numbers, FunctionDecl.body]

/-- The number of an occurrence is among those of its spot. -/
theorem occurrence_mem {p : Spot} {ref : Ref} (h : p.occurrence? = some ref) : ref.id ∈ p.phrase.numbers := by
  obtain ⟨σ, phrase⟩ := p
  cases phrase with
  | expr e =>
    cases e with
    | «variable» _ | assign _ _ | this _ | super _ _ =>
      cases h
      simp [Phrase.numbers, Expr.numbers]
    | _ => cases h
  | _ => cases h

/-- A part has numbers of the whole only. -/
theorem numbers_subset {p q : Spot} (hq : q ∈ p.parts) : q.phrase.numbers ⊆ p.phrase.numbers := by
  intro id hid
  cases h : p.occurrence? with
  | none =>
    rw [numbers_parts h]
    exact List.mem_flatMap.mpr ⟨q, hq, hid⟩
  | some ref =>
    -- Of the occurrences of names only an assignment has a part.
    obtain ⟨σ, phrase⟩ := p
    cases phrase with
    | expr e =>
      cases e with
      | assign _ value =>
        cases List.mem_singleton.mp hq
        exact List.mem_append_left _ hid
      | «variable» _ | this _ | super _ _ => cases hq
      | _ => cases h
    | _ => cases h

/-- The occurrences within a spot are among those of its phrase. -/
theorem mem_numbers_of_holds {p q : Spot} {ref : Ref} (hq : p.Holds q) (h : q.occurrence? = some ref) :
    ref.id ∈ p.phrase.numbers := by
  induction hq using Relation.ReflTransGen.head_induction_on with
  | refl => exact occurrence_mem h
  | head hpart _ ih => exact numbers_subset hpart ih

/-! ## What a walk records

  For each occurrence once, and what is expected of its place. -/

/-- What is to be recorded of the occurrence at a spot. -/
def Spot.expected? (p : Spot) (ref : Ref) : Option Nat :=
  match p.phrase with
  | .expr e => p.around.expected? e ref
  | _ => none

/-- Between the two walks the occurrences within the spots have been recorded as they are to be, as far
    as they have numbers of their own, and nothing else has been recorded. -/
structure Finds (ps : List Spot) (w w' : Walk) : Prop where
  kept : ∀ id ∉ numbersOf ps, w'.found[id]? = w.found[id]?
  recorded : (numbersOf ps).Nodup → (∀ id ∈ numbersOf ps, w.found[id]? = none) →
    ∀ p ∈ ps, ∀ q ref, p.Holds q → q.occurrence? = some ref → w'.found[ref.id]? = q.expected? ref

namespace Finds

variable {p : Spot} {ps : List Spot} {u v w : Walk}

/-- Over no spots nothing is found. -/
theorem nil (w : Walk) : Finds [] w w := ⟨fun _ _ => rfl, fun _ _ => nofun⟩

/-- What is done behind it and records nothing does not matter. -/
theorem behind (h : Finds ps u v) (hw : w.found = v.found) : Finds ps u w :=
  ⟨fun id hid => hw ▸ h.kept id hid, fun hnodup hnew => hw ▸ h.recorded hnodup hnew⟩

/-- Nor does what is done before it. -/
theorem before (hv : v.found = u.found) (h : Finds ps v w) : Finds ps u w :=
  ⟨fun id hid => hv ▸ h.kept id hid, fun hnodup hnew => h.recorded hnodup (hv ▸ hnew)⟩

/-- One spot and then the others: an occurrence lies in either, and the numbers of the two are apart. -/
theorem cons (h : Finds [p] u v) (h' : Finds ps v w) : Finds (p :: ps) u w := by
  have hnumbers : numbersOf (p :: ps) = numbersOf [p] ++ numbersOf ps := by simp [numbersOf]
  constructor
  case kept =>
    intro id hid
    rw [hnumbers, List.mem_append, not_or] at hid
    rw [h'.kept id hid.2, h.kept id hid.1]
  case recorded =>
    intro hnodup hnew
    rw [hnumbers] at hnodup hnew
    obtain ⟨hfirst, hrest, hapart⟩ := List.nodup_append.mp hnodup
    have hrecorded := h.recorded hfirst fun id hid => hnew id (List.mem_append_left _ hid)
    have hrecorded' := h'.recorded hrest fun id hid => by
      rw [h.kept id fun hid' => hapart id hid' id hid rfl]
      exact hnew id (List.mem_append_right _ hid)
    rintro r hr q ref hq hocc
    rcases List.mem_cons.mp hr with rfl | hr
    · -- What has been recorded for the first spot is not touched any more.
      have hmem : ref.id ∈ numbersOf [r] := by simpa [numbersOf] using mem_numbers_of_holds hq hocc
      rw [h'.kept ref.id fun hid => hapart ref.id hmem ref.id hid rfl]
      exact hrecorded r (.head _) q ref hq hocc
    · exact hrecorded' r hr q ref hq hocc

/-- All occurrences within the spot are within its parts. -/
theorem parts (hp : p.occurrence? = none) (h : Finds p.parts u w) : Finds [p] u w := by
  have hnumbers : numbersOf [p] = numbersOf p.parts := by simp [numbersOf, numbers_parts hp]
  constructor
  case kept => exact fun id hid => h.kept id (hnumbers ▸ hid)
  case recorded =>
    intro hnodup hnew r hr q ref hq hocc
    cases List.mem_singleton.mp hr
    rw [hnumbers] at hnodup hnew
    rcases hq.cases_head with rfl | ⟨part, hpart, hq⟩
    · rw [hp] at hocc
      cases hocc
    · exact h.recorded hnodup hnew part hpart q ref hq hocc

/-- A spot that is nothing but an occurrence. -/
theorem occurrence {ref : Ref} (hp : p.occurrence? = some ref) (hparts : p.parts = [])
    (hkept : ∀ id ∉ [ref.id], w.found[id]? = u.found[id]?)
    (hrecorded : u.found[ref.id]? = none → w.found[ref.id]? = p.expected? ref) : Finds [p] u w := by
  have hmem : ref.id ∈ numbersOf [p] := by simpa [numbersOf] using occurrence_mem hp
  constructor
  case kept =>
    intro id hid
    refine hkept id fun hid' => hid ?_
    rw [List.mem_singleton.mp hid']
    exact hmem
  case recorded =>
    intro _ hnew r hr q ref' hq hocc
    cases List.mem_singleton.mp hr
    -- The spot has no parts, so that the occurrence in it can be nothing but the spot itself.
    rcases hq.cases_head with rfl | ⟨part, hpart, -⟩
    · rw [hp] at hocc
      cases hocc
      exact hrecorded (hnew ref.id hmem)
    · rw [hparts] at hpart
      cases hpart

end Finds

/-- The walk looks through the scopes as they are written: they have the same names, one by one. -/
theorem distance?_matches {σ : Surroundings} {w : Walk} (h : σ.Matches w.scopes) (x : String) :
    w.distance? x = σ.distance? x := by
  obtain ⟨hnamed, -⟩ := h
  unfold Walk.distance? Surroundings.distance?
  generalize w.scopes = scopes, σ.scopes = names at hnamed
  induction hnamed with
  | nil => rfl
  | @cons scope own _ _ hscope _ ih =>
    have hhead : scope.contains x = decide (x ∈ own) := by
      rw [Bool.eq_iff_iff, hscope x, decide_eq_true_eq]
    rw [List.findIdx?_cons, List.findIdx?_cons, hhead, ih]

section Occurrences

variable {σ : Surroundings} {w : Walk}

/-- A report does not touch what has been found. -/
theorem use_found (ref : Ref) (w : Walk) : (w.use ref).found = (w.locate ref).found := by
  unfold Walk.use
  dsimp only
  split
  · unfold Walk.locate Walk.distance?
    dsimp only [Walk.report]
    split <;> rfl
  · rfl

/-- The name of a variable is looked for in the scopes around it. -/
theorem finds_variable (h : σ.Matches w.scopes) (ref : Ref) :
    Finds [⟨σ, .expr (.variable ref)⟩] w (w.use ref) := by
  refine .occurrence rfl rfl (Effect.use ref w).found fun hnew => ?_
  rw [use_found, Walk.locate_found hnew, distance?_matches h]
  exact (Surroundings.expected?_of_use (e := .variable ref) id ref).symm

/-- In a class `this` is looked for like a name; outside of one it is out of place. -/
theorem finds_this (h : σ.Matches w.scopes) (ref : Ref) :
    Finds [⟨σ, .expr (.this ref)⟩] w (w.useThis σ.owner ref) := by
  refine .occurrence rfl rfl (Effect.useThis σ.owner ref w).found fun hnew => ?_
  have hlocate := (Walk.locate_found hnew).trans (distance?_matches h ref.name.lexeme)
  show _ = σ.expected? (.this ref) ref
  cases ho : σ.owner with
  | outside =>
    rw [Surroundings.expected?_of_misuse (e := .this ref) ho]
    exact hnew
  | plain | subclass =>
    rw [Surroundings.expected?_of_use (e := .this ref) fun hm => nomatch ho.symm.trans hm]
    exact hlocate

/-- In a class that extends another `super` is looked for like a name; elsewhere it is out of place. -/
theorem finds_super (h : σ.Matches w.scopes) (ref : Ref) (method : Token) :
    Finds [⟨σ, .expr (.super ref method)⟩] w (w.useSuper σ.owner ref) := by
  refine .occurrence rfl rfl (Effect.useSuper σ.owner ref w).found fun hnew => ?_
  have hlocate := (Walk.locate_found hnew).trans (distance?_matches h ref.name.lexeme)
  show _ = σ.expected? (.super ref method) ref
  cases ho : σ.owner with
  | outside | plain =>
    rw [Surroundings.expected?_of_misuse (e := .super ref method) fun hm => nomatch ho.symm.trans hm]
    exact hnew
  | subclass =>
    rw [Surroundings.expected?_of_use (e := .super ref method) fun hm => hm ho]
    exact hlocate

/-- An assignment is recorded behind its value. -/
theorem finds_assign {u : Walk} {e : Expr} (h : σ.Matches w.scopes) (ref : Ref)
    (he : Finds [⟨σ, .expr e⟩] u w) : Finds [⟨σ, .expr (.assign ref e)⟩] u (w.locate ref) := by
  -- The name is looked for behind the value: the number of the assignment comes last.
  have hlocate := (Effect.locate ref w).found
  have hvalue : numbersOf [⟨σ, .expr e⟩] = e.numbers := by simp [numbersOf, Phrase.numbers]
  have hwhole : numbersOf [⟨σ, .expr (.assign ref e)⟩] = e.numbers ++ [ref.id] := by
    simp [numbersOf, Phrase.numbers, Expr.numbers]
  constructor
  case kept =>
    intro id hid
    rw [hwhole, List.mem_append, not_or] at hid
    rw [hlocate id hid.2, he.kept id (hvalue ▸ hid.1)]
  case recorded =>
    intro hnodup hnew p hp q ref' hq hocc
    cases List.mem_singleton.mp hp
    rw [hwhole] at hnodup hnew
    obtain ⟨hnodup, -, hapart⟩ := List.nodup_append.mp hnodup
    -- The walk over the value has recorded nothing under the number of the assignment, and the assignment
    -- nothing under those of the value.
    have hnot : ref.id ∉ e.numbers := fun hid => hapart ref.id hid ref.id List.mem_cons_self rfl
    rcases hq.cases_head with rfl | ⟨part, hpart, hq⟩
    · cases hocc
      have hw : w.found[ref.id]? = none := by
        rw [he.kept ref.id (hvalue ▸ hnot)]
        exact hnew ref.id (List.mem_append_right _ List.mem_cons_self)
      rw [Walk.locate_found hw, distance?_matches h]
      exact (Surroundings.expected?_of_use (e := .assign ref e) id ref).symm
    · cases List.mem_singleton.mp hpart
      have hmem : ref'.id ∈ e.numbers := mem_numbers_of_holds hq hocc
      have hne : ref'.id ∉ [ref.id] := fun hid => hnot (List.mem_singleton.mp hid ▸ hmem)
      rw [hlocate ref'.id hne]
      have hnew' := fun id hid => hnew id (List.mem_append_left [ref.id] hid)
      exact he.recorded (hvalue ▸ hnodup) (hvalue ▸ hnew') _ (.head _) q ref' hq hocc

end Occurrences

/-- To make a name usable records no distance. -/
theorem define_found (name : String) (w : Walk) : (w.define name).found = w.found := by
  unfold Walk.define
  split <;> rfl

/-- To declare a name records no distance. -/
theorem declare_found (name : Token) (w : Walk) : (w.declare name).found = w.found := by
  unfold Walk.declare
  split
  · rfl
  · split <;> rfl

theorem bind_found (name : Token) (w : Walk) : (w.bind name).found = w.found :=
  (define_found _ _).trans (declare_found name w)

theorem enterFunction_found (params : List Token) (w : Walk) : (enterFunction params w).found = w.found := by
  have hbinds : ∀ w : Walk, (params.foldl (fun w param => w.bind param) w).found = w.found := by
    induction params with
    | nil => exact fun _ => rfl
    | cons param params ih => exact fun w => (ih _).trans (bind_found param w)
  exact hbinds w.enter

/-- To look at a `return` records no distance. -/
theorem checkReturn_found (body : BodyKind) (keyword : Token) (hasValue : Bool) (w : Walk) :
    (w.checkReturn body keyword hasValue).found = w.found := by
  unfold Walk.checkReturn
  repeat' split
  all_goals rfl

theorem checkSuperclass_found (name : Token) (ref : Ref) (w : Walk) :
    (w.checkSuperclass name ref).found = w.found := by
  unfold Walk.checkSuperclass
  split <;> rfl

theorem enterClass_found (extending : Bool) (w : Walk) : (w.enterClass extending).found = w.found := by
  cases extending <;> rfl

theorem leaveClass_found (extending : Bool) (w : Walk) : (w.leaveClass extending).found = w.found := by
  cases extending <;> rfl

/-- **A walk records of the occurrences within a spot what is to be recorded**, and nothing else. -/
theorem walk_finds (p : Spot) (w : Walk) (h : Reached p w) :
    Finds [p] w (p.phrase.walk p.around.toContext w) := by
  induction p using Spot.induction generalizing w with
  | h p ih =>
    -- The walk goes over the parts of a phrase; what it does between two parts records nothing.
    have hparts := h.parts
    obtain ⟨σ, phrase⟩ := p
    match phrase with
    | .expr (.literal _) | .exprs [] | .stmts [] | .methods [] | .stmt (.breakLoop _) =>
      exact .parts rfl (.nil w)
    | .expr (.grouping _) | .expr (.unary _ _) | .expr (.get _ _) | .stmt (.expression _)
    | .stmt (.value _) | .expr (.lambda _) => exact .parts rfl (ih _ (.head _) w hparts.1)
    | .expr (.binary _ _ _) | .expr (.logical _ _ _) | .expr (.set _ _ _) | .expr (.call _ _ _)
    | .exprs (_ :: _) | .stmt (.ifElse _ _ none) | .stmt (.whileLoop _ _) | .stmts (_ :: _)
    | .methods (_ :: _) =>
      exact .parts rfl (.cons (ih _ (.head _) w hparts.1) (ih _ (.tail _ (.head _)) _ hparts.2.1))
    | .expr (.ternary _ _ _) | .stmt (.ifElse _ _ (some _)) =>
      exact .parts rfl (.cons (ih _ (.head _) w hparts.1)
        (.cons (ih _ (.tail _ (.head _)) _ hparts.2.1) (ih _ (.tail _ (.tail _ (.head _))) _ hparts.2.2.1)))
    | .expr (.variable ref) => exact finds_variable h.scopes ref
    | .expr (.this ref) => exact finds_this h.scopes ref
    | .expr (.super ref method) => exact finds_super h.scopes ref method
    | .expr (.assign ref e) =>
      have hbehind := Reached.behind (p := ⟨σ, .expr e⟩) h.scopes rfl σ.toContext
      exact finds_assign hbehind ref (ih _ (.head _) w hparts.1)
    | .stmt (.varDecl name none) =>
      exact .parts rfl ((Finds.nil w).behind (bind_found name w))
    | .stmt (.varDecl name (some e)) =>
      exact .parts rfl (((ih _ (.head _) _ hparts.1).before (declare_found name w)).behind (define_found _ _))
    | .stmt (.block _) =>
      have hbody := Finds.before (u := w) (v := w.enter) rfl (ih _ (.head _) w.enter hparts.1)
      exact .parts rfl (hbody.behind rfl)
    | .stmt (.funcDecl (.mk none _ _ _)) => exact .parts rfl (ih _ (.head _) w hparts.1)
    | .stmt (.funcDecl (.mk (some name) _ _ _)) =>
      exact .parts rfl ((ih _ (.head _) _ hparts.1).before (bind_found name w))
    | .stmt (.classDecl name none _) =>
      have hbefore := (enterClass_found false _).trans (bind_found name w)
      exact .parts rfl (((ih _ (.head _) _ hparts.1).before hbefore).behind (leaveClass_found false _))
    | .stmt (.classDecl name (some ref) _) =>
      have hbefore := (checkSuperclass_found name ref _).trans (bind_found name w)
      have hmethods := ((ih _ (.tail _ (.head _)) _ hparts.2.1).before (enterClass_found true _)).behind
        (leaveClass_found true _)
      exact .parts rfl (.cons ((ih _ (.head _) _ hparts.1).before hbefore) hmethods)
    | .stmt (.returnValue keyword none) =>
      exact .parts rfl ((Finds.nil w).behind (checkReturn_found σ.body keyword false w))
    | .stmt (.returnValue keyword (some _)) =>
      exact .parts rfl ((ih _ (.head _) _ hparts.1).before (checkReturn_found σ.body keyword true w))
    | .function kind (.mk _ _ params _) =>
      exact .parts rfl (((ih _ (.head _) _ hparts.1).before (enterFunction_found params w)).behind rfl)

/-! ## Programs -/

/-- What is recorded of the occurrences in a program is what is written, and a walk leaves what surrounds
    a place as it was. -/
structure RecordsLexically (program : List Stmt) : Prop where
  /-- Of an occurrence that is not out of place the number of scopes inside the innermost one that has
      got its name by then is recorded, if there is such a scope, and nothing else. -/
  distances : ∀ σ e ref, Spot.LiesIn ⟨σ, .expr e⟩ program → e.occurrence? = some ref → ∀ d,
    ((resolve program).resolution[ref.id]? = some d ↔ ¬ σ.Misuses e ∧ ∃ inner scope outer,
      σ.scopes = inner ++ scope :: outer ∧ ref.name.lexeme ∈ scope ∧
        (∀ names ∈ inner, ref.name.lexeme ∉ names) ∧ inner.length = d)
  /-- A walk that remembers where it is finds and reports the same … -/
  tracked : (trackStmts program .start).found = (resolve program).resolution ∧
    (trackStmts program .start).problems.toList = (resolve program).diagnostics
  /-- … and behind every phrase function and class are those before it, and so are the scopes, but for
      names that the phrase gives to the innermost one, all of which can be used. -/
  restored : ∀ (phrase : Phrase) (s : Tracker), (phrase.track s).body = s.body ∧
    (phrase.track s).owner = s.owner ∧ (phrase.track s).scopes = settle phrase.given s.scopes

/-- **Recorded distances are the lexical ones.**  Whatever has been read, with faults or without, for every
    occurrence of a variable, an assignment, a `this` or a `super` there is a distance if and only if a
    scope around it has got the name before, and it is no `this` outside of a class and no `super` without
    a superclass; and then the distance is the number of scopes that lie inside the innermost such scope.
    Behind every statement and expression the scopes, the function and the class are those before it, but
    for names of the innermost scope. -/
theorem recorded_distances_lexical (tokens : List Token) (interactive : Bool) (firstId : Nat) :
    RecordsLexically (Grammar.parse tokens interactive firstId).program := by
  have hnumbered := Grammar.parse_numbered tokens interactive firstId
  generalize (Grammar.parse tokens interactive firstId).program = program at hnumbered ⊢
  constructor
  case distances =>
    intro σ e ref hlies hocc d
    have hfinds := walk_finds (.program program) .start (.program program)
    have hnumbers : numbersOf [.program program] = stmtsNumbers program := by
      simp [numbersOf, Spot.program, Phrase.numbers]
    have hrecorded : (resolve program).resolution[ref.id]? = σ.expected? e ref :=
      hfinds.recorded (hnumbers ▸ hnumbered.nodup) (fun _ _ => rfl) _ (.head _) _ ref hlies hocc
    -- Out of place both sides are false; elsewhere both say that the innermost scope with the name is so far
    -- away.
    rw [hrecorded, Surroundings.expected?, ← Surroundings.distance?_eq_some]
    split
    · rename_i hmisuses
      exact iff_of_false (Option.some_ne_none d).symm fun h => h.1 hmisuses
    · rename_i hmisuses
      exact (and_iff_right hmisuses).symm
  case tracked =>
    have htrack : trackStmts program .start = Tracker.start.step (walkStmts .topLevel program) :=
      track_eq (.program program) .start
    rw [htrack]
    exact ⟨rfl, rfl⟩
  case restored =>
    intro phrase s
    rw [track_eq ⟨.topLevel, phrase⟩ s]
    exact ⟨rfl, rfl, walk_scopes ⟨.topLevel, phrase⟩ _ _⟩

end Scope

end Lox
