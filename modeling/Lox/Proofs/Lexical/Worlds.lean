import Lox.Proofs.Lexical.Reference
import Lox.Proofs.Runs.Moments
import Lox.Proofs.Scope.Recorded
import Lox.Proofs.Values

/-!
  Frames and cells.

  A world says which cell stands for which name of which frame, which names are declared in their
  frames by now, and for which layer of the program a frame was made.  In a world a chain of frames can be
  linked with scopes that map names to cells (`Linked`), and values can be alike: values of the machine,
  whose functions see frames, and values of the reference, whose functions see cells (`Alike`).  Worlds
  only get larger (`Later`), and what is linked or alike stays so.

  A frame cannot be linked with a scope as such, as the frame gets more names while the scopes that a function
  has kept do not.  So a link says of each name of the scope which cell it is, and nothing of names that the
  scope does not have; of these it is known from the text that they were declared later (`Linked.kept`).  A
  world that is later may have more names in frames that are loose, and it is part of the notion which frames
  these are.

  Two values that are alike differ in closures only; so what is shown of related values in general (truth,
  text, sameness, operators) is used here for the relation of closures that sees linked frames.
-/

namespace Lox

/-- The chain consists of these frames and the globals. -/
def Env.Has (env : Env) (frames : List Nat) : Prop :=
  env.frame :: env.outer = frames ++ [Env.global.frame]

namespace Lexical

open Scope

/-- What frames stand for. -/
structure World where
  /-- The cell of a name of a frame. -/
  cell : Nat → String → Option Nat
  /-- Whether the name is declared in the frame. -/
  filled : Nat → String → Bool
  /-- The layer that a frame was made for. -/
  layer : Nat → Option Layer

/-- The world has got larger; of the frames that it had only the loose ones may have got names. -/
structure Later (loose : Nat → Prop) (W W' : World) : Prop where
  layer : ∀ f ℓ, W.layer f = some ℓ → W'.layer f = some ℓ
  cell : ∀ f x c, W.cell f x = some c → W'.cell f x = some c
  filled : ∀ f x, W.filled f x = true → W'.filled f x = true
  kept : ∀ f ℓ, W.layer f = some ℓ → ¬ loose f → W'.cell f = W.cell f ∧ W'.filled f = W.filled f

/-- No frame is loose. -/
abbrev Fixed : Nat → Prop := fun _ => False

namespace Later

variable {loose loose' : Nat → Prop} {W W' W'' : World}

/-- A world is not earlier than itself. -/
theorem refl (W : World) : Later loose W W :=
  ⟨fun _ _ h => h, fun _ _ _ h => h, fun _ _ h => h, fun _ _ _ _ => ⟨rfl, rfl⟩⟩

/-- One stretch of time behind another. -/
theorem trans (h : Later loose W W') (h' : Later loose W' W'') : Later loose W W'' := by
  refine ⟨fun f ℓ hf => h'.layer f ℓ (h.layer f ℓ hf), fun f x c hc => h'.cell f x c (h.cell f x c hc),
    fun f x hx => h'.filled f x (h.filled f x hx), fun f ℓ hf hloose => ?_⟩
  obtain ⟨hcell, hfilled⟩ := h.kept f ℓ hf hloose
  obtain ⟨hcell', hfilled'⟩ := h'.kept f ℓ (h.layer f ℓ hf) hloose
  exact ⟨hcell'.trans hcell, hfilled'.trans hfilled⟩

/-- More frames may be looser. -/
theorem loosen (h : Later loose W W') (hl : ∀ f, loose f → loose' f) : Later loose' W W' :=
  ⟨h.layer, h.cell, h.filled, fun f ℓ hf hloose => h.kept f ℓ hf fun hf' => hloose (hl f hf')⟩

/-- A frame that was not there before may have got any names. -/
theorem close {f : Nat} (h : Later loose W W') (hf : W.layer f = none)
    (h' : Later (· = f) W' W'') : Later loose W W'' := by
  refine ⟨fun g ℓ hg => h'.layer g ℓ (h.layer g ℓ hg), fun g x c hc => h'.cell g x c (h.cell g x c hc),
    fun g x hx => h'.filled g x (h.filled g x hx), fun g ℓ hg hloose => ?_⟩
  have hne : g ≠ f := by
    rintro rfl
    rw [hf] at hg
    cases hg
  obtain ⟨hcell, hfilled⟩ := h.kept g ℓ hg hloose
  obtain ⟨hcell', hfilled'⟩ := h'.kept g ℓ (h.layer g ℓ hg) hne
  exact ⟨hcell'.trans hcell, hfilled'.trans hfilled⟩

end Later

/-! ## Chains of frames

  A chain of frames, a list of scopes of the walk and a list of scopes of the reference, all of one length and
  with the same names at each place. -/

/-- The frames were made for the layers, the scopes map exactly the names of the open scopes of the
    program, each to the cell that stands for it in its frame. -/
inductive Linked (W : World) : List Nat → List Layer → List Scope → Scopes → Prop where
  | nil : Linked W [] [] [] []
  | cons {f ℓ a t fs ls as ts} : W.layer f = some ℓ → (∀ x, t.contains x = a.contains x) →
    (∀ x c, t.get? x = some c → W.cell f x = some c) → Linked W fs ls as ts →
    Linked W (f :: fs) (ℓ :: ls) (a :: as) (t :: ts)

namespace Linked

variable {loose : Nat → Prop} {W W' : World} {fs : List Nat} {ls : List Layer} {as : List Scope}
  {ts : Scopes}

/-- A link stays one when the world grows. -/
theorem later (h : Linked W fs ls as ts) (hl : Later loose W W') : Linked W' fs ls as ts := by
  induction h with
  | nil => exact .nil
  | cons hf hn hc _ ih =>
    exact .cons (hl.layer _ _ hf) hn (fun x c hx => hl.cell _ x c (hc x c hx)) ih

/-- A link has as many frames as layers and scopes. -/
theorem length_eq (h : Linked W fs ls as ts) : fs.length = as.length ∧ ls.length = as.length := by
  induction h with
  | nil => exact ⟨rfl, rfl⟩
  | cons _ _ _ _ ih => exact ⟨congrArg (· + 1) ih.1, congrArg (· + 1) ih.2⟩

/-- The innermost frame was made for the innermost layer. -/
theorem head_layer {f : Nat} {ℓ : Layer} (h : Linked W (f :: fs) (ℓ :: ls) as ts) :
    W.layer f = some ℓ := by
  cases h with
  | cons hf _ _ _ => exact hf

/-- If there is an innermost layer, the innermost frame was made for it. -/
theorem innermost {ℓ : Layer} (h : Linked W fs (ℓ :: ls) as ts) :
    ∃ f rest, fs = f :: rest ∧ W.layer f = some ℓ := by
  cases h with
  | cons hf _ _ _ => exact ⟨_, _, rfl, hf⟩

/-- Where the walk finds a name, the frame that far out was made for the layer there, and the scopes
    map the name to the cell that stands for it in that frame. -/
theorem find_some (h : Linked W fs ls as ts) {x : String} {d : Nat}
    (hd : as.findIdx? (·.contains x) = some d) :
    ∃ f ℓ c, fs[d]? = some f ∧ ls[d]? = some ℓ ∧ W.layer f = some ℓ ∧ find? ts x = some c ∧
      W.cell f x = some c := by
  induction h generalizing d with
  | nil => cases hd
  | @cons f ℓ a t fs ls as ts hf hn hc _ ih =>
    rw [List.findIdx?_cons] at hd
    have hcontains := hn x
    rw [Table.contains] at hcontains
    rw [find?, List.findSome?_cons]
    -- The innermost scope has the name on both sides, or on neither.
    cases ht : t.get? x with
    | some c =>
      rw [ht] at hcontains
      rw [← hcontains] at hd
      cases hd
      exact ⟨f, ℓ, c, rfl, rfl, hf, rfl, hc x c ht⟩
    | none =>
      rw [ht] at hcontains
      rw [← hcontains] at hd
      obtain ⟨d, hd', rfl⟩ := Option.map_eq_some_iff.mp hd
      exact ih hd'

/-- A name that the walk finds in no scope is in none of the reference. -/
theorem find_none (h : Linked W fs ls as ts) {x : String}
    (hd : as.findIdx? (·.contains x) = none) : find? ts x = none := by
  induction h with
  | nil => rfl
  | @cons f ℓ a t fs ls as ts hf hn hc _ ih =>
    rw [List.findIdx?_cons] at hd
    have hcontains := hn x
    rw [Table.contains] at hcontains
    rw [find?, List.findSome?_cons]
    cases ht : t.get? x with
    | some c =>
      rw [ht] at hcontains
      rw [← hcontains] at hd
      cases hd
    | none =>
      rw [ht] at hcontains
      rw [← hcontains] at hd
      exact ih (Option.map_eq_none_iff.mp hd)

end Linked

/-! ## Values

  Values are alike if they show the same; functions are if they have the same text, in chains that are linked. -/

/-- Two functions of one text. -/
structure Twins (c : Closure) (r : Closure Scopes) : Prop where
  declaration : r.declaration = c.declaration
  isInitializer : r.isInitializer = c.isInitializer

section Values

variable (visited : Site → Prop) (W : World)

/-- The functions see the same, at a site of their text.  What makes an instance ready sees that
    instance. -/
inductive Bound (c : Closure) (r : Closure Scopes) : Prop where
  | intro {ctx w kind ls fs} (twins : Twins c r)
    (visited : visited ⟨⟨ctx, w, .function kind c.declaration⟩, ls⟩) (chain : c.env.Has fs)
    (linked : Linked W fs ls w.scopes r.env)
    (this : c.isInitializer = true → ∃ ℓ rest, ls = ℓ :: rest ∧ ℓ.kind = .this)

/-- The methods see the same, but for the instance that they are still to be bound to. -/
inductive Unbound (c : Closure) (r : Closure Scopes) : Prop where
  | intro {ctx w kind ℓ ls a as fs} (twins : Twins c r)
    (visited : visited ⟨⟨ctx, w, .function kind c.declaration⟩, ℓ :: ls⟩) (this : ℓ.kind = .this)
    (scopes : w.scopes = a :: as) (chain : c.env.Has fs) (linked : Linked W fs ls as r.env)

/-- The classes are the same, with methods that see the same. -/
structure BodyAlike (b : ClassBody) (r : ClassBody Scopes) : Prop where
  identity : r.identity = b.identity
  name : r.name = b.name
  methods : ∀ x, Option.Rel (Unbound visited W) (b.methods.get? x) (r.methods.get? x)

/-- The classes are the same, and so are those that they extend. -/
abbrev ClassAlike (c : Class) (r : Class Scopes) : Prop :=
  List.Forall₂ (BodyAlike visited W) c.chain r.chain

/-- The values are the same, with functions that see the same. -/
inductive Alike : Value → Value Scopes → Prop where
  | nil : Alike .nil .nil
  | bool (b : Bool) : Alike (.bool b) (.bool b)
  | number (x : Float) : Alike (.number x) (.number x)
  | string (s : String) : Alike (.string s) (.string s)
  | native (n : Native) : Alike (.native n) (.native n)
  | function (id : Nat) {c : Closure} {r : Closure Scopes} : Bound visited W c r →
    Alike (.function id c) (.function id r)
  | classOf {c : Class} {r : Class Scopes} : ClassAlike visited W c r →
    Alike (.classOf c) (.classOf r)
  | object (id : Nat) {c : Class} {r : Class Scopes} : ClassAlike visited W c r →
    Alike (.object id c) (.object id r)

/-- The variables are the same: not there, without a value, or with values that are alike. -/
abbrev SlotAlike : Option (Option Value) → Option (Option (Value Scopes)) → Prop :=
  Option.Rel (Option.Rel (Alike visited W))

/-- The statements were completed in the same way. -/
inductive CompletionAlike : Completion → Completion Scopes → Prop where
  | normal : CompletionAlike .normal .normal
  | broke : CompletionAlike .broke .broke
  | returned {v r} : Alike visited W v r → CompletionAlike (.returned v) (.returned r)

end Values

/-! ## Larger worlds -/

/-- Where one of two is there so is the other. -/
theorem rel_isSome {α β : Type} {Q : α → β → Prop} {a : Option α} {b : Option β}
    (h : Option.Rel Q a b) : a.isSome = b.isSome := by
  cases h <;> rfl

section Larger

variable {visited visited' : Site → Prop} {loose : Nat → Prop} {W W' : World}

/-- Functions stay alike. -/
theorem Bound.mono {c : Closure} {r : Closure Scopes} (h : Bound visited W c r)
    (hv : ∀ p, visited p → visited' p) (hl : Later loose W W') : Bound visited' W' c r := by
  obtain ⟨twins, hvisited, chain, linked, this⟩ := h
  exact ⟨twins, hv _ hvisited, chain, linked.later hl, this⟩

/-- So do methods that are not bound yet. -/
theorem Unbound.mono {c : Closure} {r : Closure Scopes} (h : Unbound visited W c r)
    (hv : ∀ p, visited p → visited' p) (hl : Later loose W W') : Unbound visited' W' c r := by
  obtain ⟨twins, hvisited, this, scopes, chain, linked⟩ := h
  exact ⟨twins, hv _ hvisited, this, scopes, chain, linked.later hl⟩

/-! ### As values that are related -/

/-- Classes that are alike are related. -/
theorem ClassAlike.related {c : Class} {r : Class Scopes} (h : ClassAlike visited W c r) :
    c.Related (Unbound visited W) r :=
  List.Forall₂.imp (fun _ _ hb => ⟨hb.identity, hb.name, hb.methods⟩) h

/-- And the other way round. -/
theorem ClassAlike.of_related {c : Class} {r : Class Scopes} (h : c.Related (Unbound visited W) r) :
    ClassAlike visited W c r :=
  List.Forall₂.imp (fun _ _ hb => ⟨hb.identity, hb.name, hb.methods⟩) h

/-- Values that are alike are related. -/
theorem Alike.related {v : Value} {r : Value Scopes} (h : Alike visited W v r) :
    v.Related (Bound visited W) (Unbound visited W) r := by
  cases h with
  | nil => exact .nil
  | bool b => exact .bool b
  | number x => exact .number x
  | string s => exact .string s
  | native n => exact .native n
  | function id hc => exact .function id hc
  | classOf hc => exact .classOf hc.related
  | object id hc => exact .object id hc.related

/-- And the other way round. -/
theorem Alike.of_related {v : Value} {r : Value Scopes}
    (h : v.Related (Bound visited W) (Unbound visited W) r) : Alike visited W v r := by
  cases h with
  | nil => exact .nil
  | bool b => exact .bool b
  | number x => exact .number x
  | string s => exact .string s
  | native n => exact .native n
  | function id hc => exact .function id hc
  | classOf hc => exact .classOf (.of_related hc)
  | object id hc => exact .object id (.of_related hc)

/-- Classes stay alike. -/
theorem ClassAlike.mono {c : Class} {r : Class Scopes} (h : ClassAlike visited W c r)
    (hv : ∀ p, visited p → visited' p) (hl : Later loose W W') : ClassAlike visited' W' c r :=
  .of_related (h.related.imp fun _ _ hm => hm.mono hv hl)

/-- Values stay alike. -/
theorem Alike.mono {v : Value} {r : Value Scopes} (h : Alike visited W v r)
    (hv : ∀ p, visited p → visited' p) (hl : Later loose W W') : Alike visited' W' v r :=
  .of_related (h.related.imp (fun _ _ hc => hc.mono hv hl) fun _ _ hm => hm.mono hv hl)

/-- Slots stay alike. -/
theorem SlotAlike.mono {s : Option (Option Value)} {r : Option (Option (Value Scopes))}
    (h : SlotAlike visited W s r) (hv : ∀ p, visited p → visited' p) (hl : Later loose W W') :
    SlotAlike visited' W' s r :=
  related_imp h fun _ _ ho => related_imp ho fun _ _ ha => ha.mono hv hl

end Larger

/-! ## What values have in common -/

section Common

variable {visited : Site → Prop} {W : World} {v : Value} {r : Value Scopes}

/-- They are true alike. -/
theorem Alike.truthy (h : Alike visited W v r) : v.truthy = r.truthy := h.related.truthy_eq.symm

/-- They show alike. -/
theorem Bound.displayName_eq (c : Closure) (r : Closure Scopes) (h : Bound visited W c r) :
    r.declaration.displayName = c.declaration.displayName := by
  obtain ⟨twins, _, _, _, _⟩ := h
  rw [twins.declaration]

/-- They are printed alike. -/
theorem Alike.printed (h : Alike visited W v r) : v.printed = r.printed :=
  (h.related.printed_eq Bound.displayName_eq).symm

/-- The method of a name is found in the same class of the chain. -/
theorem ClassAlike.method? {c : Class} {d : Class Scopes} (h : ClassAlike visited W c d)
    (name : String) : Option.Rel (Unbound visited W) (c.method? name) (d.method? name) :=
  h.related.method? name

/-- A method that is found in the one class is found in the other. -/
theorem ClassAlike.unbound {c : Class} {d : Class Scopes} (h : ClassAlike visited W c d)
    {name : String} {found : Closure} (hm : c.method? name = some found) :
    ∃ found', Unbound visited W found found' := by
  have hmethod := h.method? name
  rw [hm] at hmethod
  generalize d.method? name = found' at hmethod
  cases hmethod with
  | some hu => exact ⟨_, hu⟩

end Common

/-! ## Operators and native functions

  They look at nothing in which values that are alike could differ, and fail with the same faults. -/

/-- What no expression of a program that was accepted can fail with. -/
def ruledOut : List RuntimeFault :=
  [.alreadyDefined, .superOutsideClass, .thisNotInstance, .invalidUnary, .invalidBinary,
    .noEnclosingScope]

/-- What comes out is the same fault, none that is ruled out, or what is related. -/
inductive Same {α β : Type} (Q : α → β → Prop) :
    Except RuntimeFault α → Except RuntimeFault β → Prop where
  | ok {a b} : Q a b → Same Q (.ok a) (.ok b)
  | error {fault} : fault ∉ ruledOut → Same Q (.error fault) (.error fault)

section Operators

variable {visited : Site → Prop} {W : World} {v u : Value} {r t : Value Scopes} {op : TokenKind}

/-- Related results are the same, unless the error is one that is ruled out. -/
theorem Same.of_related {result : Except RuntimeFault Value} {result' : Except RuntimeFault (Value Scopes)}
    (h : ResultRelated (Bound visited W) (Unbound visited W) result result')
    (hf : ∀ fault, result = .error fault → fault ∉ ruledOut) : Same (Alike visited W) result result' := by
  cases h with
  | ok hv => exact .ok (.of_related hv)
  | error => exact .error (hf _ rfl)

/-- A unary operator fails for its operand only. -/
theorem unary_fault (hop : op = .mark .bang ∨ op = .mark .minus) {fault : RuntimeFault}
    (h : Operator.unary op v = .error fault) : fault ∉ ruledOut := by
  rcases hop with rfl | rfl
  · cases h
  · cases v <;> cases h <;> decide

/-- A binary operator fails for its operands only. -/
theorem binary_fault (hop : op ∈ binaryOperators) {fault : RuntimeFault}
    (h : Operator.binary op v u = .error fault) : fault ∉ ruledOut := by
  have hall : binaryOperators = [.mark .bangEqual, .mark .equalEqual, .mark .greater,
    .mark .greaterEqual, .mark .less, .mark .lessEqual, .mark .minus, .mark .plus, .mark .slash,
    .mark .star, .mark .percent] := rfl
  rw [hall] at hop
  simp only [List.mem_cons, List.not_mem_nil, or_false] at hop
  rcases hop with rfl | rfl | rfl | rfl | rfl | rfl | rfl | rfl | rfl | rfl | rfl <;>
    cases v <;> cases u <;> cases h <;> decide

/-- What the sink says is never one of the faults that are ruled out. -/
theorem refusedOutput_not_ruledOut (cause : String) : RuntimeFault.refusedOutput cause ∉ ruledOut := by
  simp [ruledOut]

/-- A native function fails for what lies outside of the program only. -/
theorem native_fault {given : List Value} {host : Host} {native : Native} {fault : RuntimeFault}
    (h : (Machine.nativeAnswer given host native).1 = .error fault) : fault ∉ ruledOut := by
  unfold Machine.nativeAnswer at h
  split at h
  · cases h
  · split at h <;> cases h
    decide
  · split at h <;> cases h
    exact refusedOutput_not_ruledOut _

/-- A unary operator comes to the same. -/
theorem Alike.unary (hop : op = .mark .bang ∨ op = .mark .minus) (h : Alike visited W v r) :
    Same (Alike visited W) (Operator.unary op v) (Operator.unary op r) :=
  .of_related (h.related.unary op) fun _ => unary_fault hop

/-- So does a binary one. -/
theorem Alike.binary (hop : op ∈ binaryOperators) (h : Alike visited W v r)
    (h' : Alike visited W u t) :
    Same (Alike visited W) (Operator.binary op v u) (Operator.binary op r t) :=
  .of_related (h.related.binary op h'.related) fun _ => binary_fault hop

/-- And so does the question whether the right side is needed. -/
theorem Alike.shortCircuits (h : Alike visited W v r) (op : TokenKind) :
    Operator.shortCircuits op v = Operator.shortCircuits op r :=
  (h.related.shortCircuits_eq op).symm

/-- A native function does the same with arguments that are alike. -/
theorem nativeAnswer_alike {given : List Value} {given' : List (Value Scopes)}
    (h : List.Forall₂ (Alike visited W) given given') (host : Host) (native : Native) :
    Same (Alike visited W) (Machine.nativeAnswer given host native).1
      (Machine.nativeAnswer given' host native).1 ∧
    (Machine.nativeAnswer given host native).2 = (Machine.nativeAnswer given' host native).2 := by
  have hgiven := List.Forall₂.imp (fun _ _ hv => Alike.related hv) h
  obtain ⟨hresult, hhost⟩ := nativeAnswer_related Bound.displayName_eq hgiven host native
  exact ⟨.of_related hresult fun _ => native_fault, hhost.symm⟩

end Operators

end Lexical

end Lox
