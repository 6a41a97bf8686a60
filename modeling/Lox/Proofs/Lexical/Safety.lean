import Lox.Proofs.Lexical.Chains

/-!
  What acceptance rules out.

  In a submission about which nothing was reported some errors cannot occur, however the session came
  about and wherever the evaluator stands (`accepted_safe`).

  The evaluator has checks that a reader of it may wonder about: whether there is a method around `super`,
  whether what `this` stands for is an instance, whether an operator is one, whether a name is declared
  twice in a frame.  They are what is left where matching and reading have already seen to it.  The proof
  asks what a poised moment can fail with (`Lexical.Poised.fault`): everything the evaluator comes to in an
  accepted submission is poised (`Lexical.poised_of_history`), and at a poised moment a fault is either none
  of those that are ruled out, or that of a global that is there already.  What remains is the name with a
  distance that its frame lacks, and `Lexical.Poised.missing` tells how that comes about.
-/

namespace Lox

open Scope Lexical

/-- **Some errors cannot occur in a submission about which nothing was reported.**  However it came to
    be submitted and wherever an error ends the run, the error is none of those about `super` and
    `this` outside of methods and about unknown operators; only a global is ever declared twice; and a
    `super` expression can only fail because the superclass lacks the method.  A name with a recorded
    distance is undefined in its frame only as a parameter for which the call had no argument, or as a
    variable whose initializer was ended by an error in an earlier submission or is still being
    evaluated. -/
theorem accepted_safe {interactive : Bool} {host : Host} {dealings : List Dealing} {t : Turn}
    (hhistory : (Session.start interactive host).History dealings t.session) (ha : t.Accepted) {μ : Moment}
    (hμ : t.opening.Leads μ) {error : RuntimeError} (hf : μ.Fails error) :
    error.fault ∉ [.superOutsideClass, .thisNotInstance, .invalidUnary, .invalidBinary] ∧
    (error.fault = .alreadyDefined → μ.AtTopLevel) ∧
    (∀ ref method, μ.activity = .evaluate (.super ref method) →
      error.fault = .undefinedProperty) ∧
    ∀ ref d, μ.activity.sought? = some ref → μ.machine.resolution[ref.id]? = some d →
      error.fault = .undefinedVariable →
      ∃ f, μ.machine.env.ancestor? d = some f ∧
        (Unsupplied (Lives (t :: turnsOf dealings)) f ref.name.lexeme ∨
          Abandoned (Lives (turnsOf dealings)) f ref.name.lexeme ∨
          t.opening.Awaits μ f ref.name.lexeme) := by
  obtain ⟨hclosed, hpoised, hlived⟩ := poised_of_history hhistory ha hμ
  -- What a moment that agrees with the reference can fail with; the clauses only differ in what they ask of
  -- it.
  have hfault := hpoised.fault hclosed hlived hf
  refine ⟨fun hmem => ?_, fun hdefined => ?_, fun ref method hactivity => ?_,
    fun ref d hsought hd hundefined => ?_⟩
  · have hruledOut : ∀ fault ∈ [RuntimeFault.superOutsideClass, .thisNotInstance, .invalidUnary,
        .invalidBinary], fault ∈ ruledOut := by decide
    rcases hfault with hnot | ⟨hdefined, -⟩
    · exact hnot (hruledOut _ hmem)
    · rw [hdefined] at hmem
      exact absurd hmem (by decide)
  · rcases hfault with hnot | ⟨-, htop⟩
    · rw [hdefined] at hnot
      exact absurd (by decide) hnot
    · exact htop
  · obtain ⟨n, activity, m⟩ := μ
    cases hactivity
    exact hpoised.super_fault hclosed hf
  · obtain ⟨f, hframe, hexcused⟩ := hpoised.missing hsought hd hf hundefined
    exact ⟨f, hframe, or_assoc.mp hexcused⟩

open MissingArgument in
/-- The flags have been cleared before.  Within the call the parameter is undefined, as the call has no
    argument for it. -/
theorem accepted_safe_in_call :
    turn.session.History [⟨turn.session, .clearFlags⟩] turn.session ∧
    turn.Accepted ∧ turn.opening.Leads ⟨5, .lookUp ⟨0, param⟩, inside⟩ ∧
    Moment.Fails ⟨5, .lookUp ⟨0, param⟩, inside⟩ ⟨param, .undefinedVariable⟩ ∧
    inside.resolution[0]? = some 0 ∧
    ∃ f, inside.env.ancestor? 0 = some f ∧
      (Unsupplied (Lives [turn]) f "x" ∨ Abandoned (Lives []) f "x" ∨
        turn.opening.Awaits ⟨5, .lookUp ⟨0, param⟩, inside⟩ f "x") := by
  have hhistory : turn.session.History [⟨turn.session, .clearFlags⟩] turn.session := .deal .start rfl
  have hleads : turn.opening.Leads ⟨5, .lookUp ⟨0, param⟩, inside⟩ := leads.tail .variable
  have hfails : Moment.Fails ⟨5, .lookUp ⟨0, param⟩, inside⟩ ⟨param, .undefinedVariable⟩ :=
    ⟨inside, by cbv⟩
  have hdistance : inside.resolution[0]? = some 0 := by cbv
  have hsafe := accepted_safe hhistory accepted hleads hfails
  exact ⟨hhistory, accepted, hleads, hfails, hdistance, hsafe.2.2.2 ⟨0, param⟩ 0 rfl hdistance rfl⟩

end Lox
