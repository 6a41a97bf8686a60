import Mathlib
import Lox.Proofs.Lexical.Dealings
import Lox.Proofs.Lexical.Faults

/-!
  Chains of frames.

  Whenever the evaluator is about to evaluate or to execute something, there is one frame outside the
  globals for every scope that was open when the walk came to it (`chain_matches_scopes`).  Each frame
  was made for its scope and declares only names of it, so that the distance recorded for a name leads
  to the frame of the scope in which the walk found it.

  That a frame is an instance of a scope (`Instance`) is said without the reference and its cells: it was made
  at a moment at which such frames are made, for that place of the text, and the names in it are names of the
  scope.  The proof has nothing left to do but to read this off a poised moment.  There the frames are linked with
  layers, the layers with the scopes of the walk, and the world knows for which layer a frame was made.

  The example is a function that is called where it stands: inside it the chain has one frame besides the
  globals, and the parameter is found at the distance 0.
-/

namespace Lox

open Scope

/-- The phrase that is about to be evaluated or executed. -/
def Activity.phrase? : Activity → Option Phrase
  | .evaluate e => some (.expr e)
  | .evaluateAll es => some (.exprs es)
  | .execute s => some (.stmt s)
  | .executeAll ss | .program ss _ => some (.stmts ss)
  | _ => none

/-- The occurrence of a name that the phrase is, or, if it is the declaration of a class, the name of
    the class that is extended. -/
def Phrase.occurrence? : Phrase → Option Ref
  | .expr (.variable ref) | .expr (.assign ref _) | .expr (.this ref) | .expr (.super ref _)
  | .stmt (.classDecl _ (some ref) _) => some ref
  | _ => none

/-- The frame was made for the layer, and declares only names of its scope. -/
structure Instance (turns : List Turn) (m : Machine) (f : Nat) (layer : Layer) : Prop where
  inner : f ≠ Env.global.frame
  made : Made (Lives turns) (Seen turns) f layer
  names : ∀ x, (m.store.slot? f x).isSome = true → layer.scope.contains x = true

/-- The current frames are instances of the scopes that were open when the walk came to the site. -/
structure Aligned (turns : List Turn) (m : Machine) (p : Site) (frames : List Nat) : Prop where
  seen : Seen turns p
  chain : m.env.Has frames
  length_eq : frames.length = p.walk.scopes.length
  covers : Covers p.walk.scopes p.layers
  instances : List.Forall₂ (Instance turns m) frames p.layers

/-- The scope in which the walk finds a name is that of the frame at that distance. -/
theorem Aligned.reaches {turns : List Turn} {m : Machine} {p : Site} {frames : List Nat}
    (h : Aligned turns m p frames) {x : String} {d : Nat} (hd : p.walk.distance? x = some d) :
    ∃ f layer, m.env.ancestor? d = some f ∧ p.layers[d]? = some layer ∧ Instance turns m f layer ∧
      layer.scope.contains x = true := by
  obtain ⟨hlt, hcontains, -⟩ := List.findIdx?_eq_some_iff_getElem.mp hd
  have hlt' : d < p.layers.length := h.covers.length_eq ▸ hlt
  have hlt'' : d < frames.length := h.length_eq ▸ hlt
  have hfits : Fits p.walk.scopes[d] p.layers[d] := (List.forall₂_iff_get.mp h.covers).2 d hlt hlt'
  have hinstance : Instance turns m frames[d] p.layers[d] :=
    (List.forall₂_iff_get.mp h.instances).2 d hlt'' hlt'
  exact ⟨frames[d], p.layers[d], h.chain.ancestor? (List.getElem?_eq_getElem hlt''),
    List.getElem?_eq_getElem hlt', hinstance, hfits.names x hcontains⟩

/-- What is recorded for an occurrence is what the walk found at its site. -/
theorem Scope.Settled.occurrence {R : Resolution} {p : Site} (h : Settled R p) {ref : Ref}
    (ho : p.phrase.occurrence? = some ref) : Recorded R p.walk ref := by
  obtain ⟨⟨ctx, w, phrase⟩, ls⟩ := p
  dsimp only at ho
  unfold Phrase.occurrence? at ho
  split at ho
  · cases ho
    exact h.variable.1
  · cases ho
    exact h.assign.1
  · cases ho
    exact h.this.1
  · cases ho
    exact h.super.1
  · cases ho
    exact h.superclass.1
  · cases ho

namespace Lexical

variable {R : Resolution} {turns : List Turn} {E : Nat → String → Prop} {W : World} {m : Machine}
  {t : State} {ctx : Context} {w : Walk} {phrase : Phrase} {ls : List Layer} {fs : List Nat}
  {as : List Scope} {ts : Scopes}

/-- A frame of the world is an instance of its layer. -/
theorem InStep.instance_of_layer (hi : InStep (lore R turns) E W m t) {f : Nat} {ℓ : Layer}
    (hf : W.layer f = some ℓ) : Instance turns m f ℓ := by
  have hpos := Nat.ne_of_gt ((hi.agree.framed f).mp ⟨ℓ, hf⟩).1
  refine ⟨hpos, hi.agree.made f ℓ hf, fun x hx => ?_⟩
  cases hc : W.cell f x with
  | none =>
    rw [hi.agree.unnamed f x hpos hc] at hx
    cases hx
  | some c =>
    obtain ⟨ℓ', hf', hcontains⟩ := hi.agree.inside f x c hc
    cases hf.symm.trans hf'
    exact hcontains

/-- Linked frames are instances of the layers. -/
theorem Linked.instances (hi : InStep (lore R turns) E W m t) (hl : Linked W fs ls as ts) :
    List.Forall₂ (Instance turns m) fs ls := by
  induction hl with
  | nil => exact .nil
  | cons hf _ _ _ ih => exact .cons (hi.instance_of_layer hf) ih

/-- Where the evaluator stands at a site, frames and scopes are aligned. -/
theorem Stands.aligned (h : Stands (lore R turns) E W m t ctx w phrase ls fs ts)
    (hL : (lore R turns).Closed) : Aligned turns m ⟨⟨ctx, w, phrase⟩, ls⟩ fs := by
  obtain ⟨is, hsits⟩ := hL.settled h.visited
  exact ⟨h.visited, h.chain, h.linked.length_eq.1, hsits.before, h.linked.instances h.inStep⟩

/-- At a poised moment the frames are aligned with a site of what is about to be done, and what is
    recorded for its occurrence is known. -/
theorem Poised.aligned {μ : Moment} (h : Poised (lore R turns) E μ) (hL : (lore R turns).Closed)
    (hp : μ.activity.phrase? = some phrase) :
    ∃ p frames, p.phrase = phrase ∧ Aligned turns μ.machine p frames ∧
      ∀ ref, phrase.occurrence? = some ref →
        μ.machine.resolution[ref.id]? = p.walk.distance? ref.name.lexeme := by
  have halign : ∀ {m W t ctx w phrase ls fs ts},
      Stands (lore R turns) E W m t ctx w phrase ls fs ts →
      ∃ p frames, p.phrase = phrase ∧ Aligned turns m p frames ∧ ∀ ref,
        phrase.occurrence? = some ref → m.resolution[ref.id]? = p.walk.distance? ref.name.lexeme := by
    intro m W t ctx w phrase ls fs ts h
    refine ⟨_, _, rfl, h.aligned hL, fun ref href => ?_⟩
    rw [h.inStep.resolution]
    exact (hL.settled h.visited).occurrence href
  cases h with
  | evaluate h | evaluateAll h | execute h _ | executeAll h _ | program h _ =>
    cases hp
    exact halign h
  | call _ _ _ | callClosure _ _ _ | lookUp _ | assign _ | bind _ _ _ => cases hp

end Lexical

/-- **The chain of frames matches the scopes that the walk had open.**  However a submission came to be
    made, whatever the evaluator is about to evaluate or to execute in it was come to by the walk over
    its program or over that of an earlier submission.  The current chain leads to the globals through
    one frame for every scope that was open there, which was made for that scope and declares only
    names of it.  For an occurrence of a name the distance that the walk found is recorded, and leads
    to the frame of the scope in which the walk found the name.  So no frame is ever missing. -/
theorem chain_matches_scopes {interactive : Bool} {host : Host} {dealings : List Dealing} {t : Turn}
    (hhistory : (Session.start interactive host).History dealings t.session) (ha : t.Accepted) {μ : Moment}
    (hμ : t.opening.Leads μ) :
    (∀ phrase, μ.activity.phrase? = some phrase → ∃ p frames, p.phrase = phrase ∧
      Aligned (t :: turnsOf dealings) μ.machine p frames ∧
      ∀ ref, phrase.occurrence? = some ref →
        μ.machine.resolution[ref.id]? = p.walk.distance? ref.name.lexeme ∧
        ∀ d, p.walk.distance? ref.name.lexeme = some d →
          ∃ f layer, μ.machine.env.ancestor? d = some f ∧ p.layers[d]? = some layer ∧
            Instance (t :: turnsOf dealings) μ.machine f layer ∧
            layer.scope.contains ref.name.lexeme = true) ∧
    ∀ error, μ.Fails error → error.fault ≠ .noEnclosingScope := by
  obtain ⟨hclosed, hpoised, hlived⟩ := Lexical.poised_of_history hhistory ha hμ
  refine ⟨fun phrase hphrase => ?_, fun error hf hfault => ?_⟩
  · obtain ⟨p, frames, hp, haligned, hrecorded⟩ := hpoised.aligned hclosed hphrase
    exact ⟨p, frames, hp, haligned, fun ref href => ⟨hrecorded ref href, fun d => haligned.reaches⟩⟩
  · rcases hpoised.fault hclosed hlived hf with hnot | ⟨hdefined, -⟩
    · rw [hfault] at hnot
      exact hnot (by decide)
    · rw [hfault] at hdefined
      cases hdefined

/-! ## A call without an argument -/

namespace MissingArgument

/-- A call that has no argument for the parameter of the function. -/
def turn : Turn :=
  ⟨.start false ⟨[], #[], .whole, fun _ => 0, 0⟩, 12, "(func(x) \x7b x; \x7d)();"⟩

/-- The parameter. -/
def param : Token := ⟨.identifier, "x", 1⟩

/-- The function. -/
def function : FunctionDecl :=
  .mk none ⟨.keyword .funcKw, "func", 1⟩ [param] [.expression (.variable ⟨0, param⟩)]

/-- The machine on which the body of the function runs. -/
def inside : Machine :=
  { turn.machine with
    store := { turn.machine.store with
      frames := turn.machine.store.frames.push .empty
      nextIdentity := turn.machine.store.nextIdentity + 1 }
    env := Env.global.extend turn.machine.store.frames.size }

/-- The program of the example is accepted. -/
theorem accepted : turn.Accepted := ⟨by cbv, by cbv⟩

/-- The program of the example. -/
theorem program_eq : turn.parsed.program =
    [.expression (.call (.grouping (.lambda function)) ⟨.mark .rightParen, ")", 1⟩ [])] := by
  cbv

/-- The evaluator comes to the parameter, inside the call. -/
theorem leads : turn.opening.Leads ⟨6, .evaluate (.variable ⟨0, param⟩), inside⟩ := by
  have hprogram := program_eq
  unfold Turn.opening
  rw [hprogram]
  refine .head (.statement nofun) (.head .expression (.head (.call rfl rfl) (.head .closure ?_)))
  exact .head (.body rfl rfl) (.head .firstStmt (.head .expression .refl))

end MissingArgument

open MissingArgument in
/-- Within the call, the occurrence of the parameter stands in the one frame of the call. -/
theorem chain_matches_scopes_in_call :
    turn.Accepted ∧ turn.opening.Leads ⟨6, .evaluate (.variable ⟨0, param⟩), inside⟩ ∧
    ∃ p frames, p.phrase = .expr (.variable ⟨0, param⟩) ∧ Aligned [turn] inside p frames ∧
      inside.resolution[0]? = p.walk.distance? "x" := by
  obtain ⟨p, frames, hp, haligned, hrecorded⟩ :=
    (chain_matches_scopes .start accepted leads).1 _ rfl
  exact ⟨accepted, leads, p, frames, hp, haligned, (hrecorded _ rfl).1⟩

end Lox
