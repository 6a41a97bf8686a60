import Lox.Proofs.Grammar.Gives

/-!
  What a production reads without fail.

  `Reads inLoop s p a u` says that wherever `p` starts at the stand `s`, in a loop if `inLoop` says so,
  it comes to the stand `u` with the answer `a` and without a report, unless it runs out of fuel.
  There is one rule for each way to put productions together, and two for each choice by the token at
  the front.

  The rules are those of an execution by hand: which token is at the front is known, so each look and each
  accepted token goes one way (`accept` or `pass`, `sees` or `seesNot`, `omitted` or `given`), and the
  rest is read from there.  Nothing is said of cursors but the stand, as everything else in them stays what
  it was (`Cursor.move`); in particular no report is added.

  The alternative of running out of fuel lets all of this be said for any fuel.  That there is enough of
  it is shown elsewhere, once, for all rules.
-/

namespace Lox.Grammar

variable {α β : Type}

/-- The cursor at another stand. -/
def Cursor.move (c : Cursor) (s : Stand) : Cursor := { c with ahead := s.1, nextId := s.2 }

@[simp] theorem Cursor.stand_move (c : Cursor) (s : Stand) : (c.move s).stand = s := rfl

@[simp] theorem Cursor.move_move (c : Cursor) (s u : Stand) : (c.move s).move u = c.move u := rfl

@[simp] theorem Cursor.move_stand (c : Cursor) : c.move c.stand = c := rfl

/-- The production reads from one stand to the other, with the answer. -/
def Reads (inLoop : Bool) (s : Stand) (p : Production α) (a : α) (u : Stand) : Prop :=
  ∀ c, (inLoop = true → 0 < c.loopDepth) → c.stand = s → p c = .exhausted ∨ p c = .done a (c.move u)

namespace Reads

variable {inLoop : Bool} {s u v : Stand} {a : α} {b : β}

/-- Without fuel, the alternative holds. -/
theorem outOfFuel : Reads inLoop s (.outOfFuel : Production α) a u :=
  fun _ _ _ => .inl rfl

/-- A rule without fuel reads anything. -/
theorem rule {p : Nat → Production α} (hzero : p 0 = .outOfFuel)
    (h : ∀ fuel, Reads inLoop s (p (fuel + 1)) a u) (fuel : Nat) : Reads inLoop s (p fuel) a u := by
  cases fuel with
  | zero => rw [hzero]; exact outOfFuel
  | succ fuel => exact h fuel

/-- Nothing is read. -/
theorem pure : Reads inLoop s (Pure.pure a) a s := by
  rintro c - rfl
  exact .inr rfl

/-- One part is read behind the other. -/
theorem bind {x : Production α} {f : α → Production β} (hx : Reads inLoop s x a v)
    (hf : Reads inLoop v (f a) b u) : Reads inLoop s (x >>= f) b u := by
  intro c hl hs
  rcases hx c hl hs with hxc | hxc
  · exact .inl (Action.bind_of_exhausted hxc)
  · rw [Action.bind_of_done hxc]
    exact hf (c.move v) hl rfl

/-- An answer that is made of another. -/
theorem map {x : Production α} {f : α → β} (hx : Reads inLoop s x a u) :
    Reads inLoop s (f <$> x) (f a) u := by
  rw [map_eq_pure_bind]
  exact hx.bind pure

/-! ## Single tokens -/

section Tokens

variable {fits : TokenKind → Bool} {kind : TokenKind} {t : Token} {ts : List Token} {i : Nat}

/-- The token at the front is read, if it fits. -/
theorem accept {f : Option Token → Production β} (ht : fits t.kind = true)
    (hf : Reads inLoop (ts, i) (f (some t)) b u) :
    Reads inLoop (t :: ts, i) (acceptWhere fits >>= f) b u := by
  refine bind (a := some t) (v := (ts, i)) ?_ hf
  rintro ⟨ahead, _, _, _, _, _⟩ - hs
  cases hs
  exact .inr (by simp [acceptWhere, ht, Cursor.move])

/-- The token at the front does not fit, if there is one. -/
def Passes (fits : TokenKind → Bool) (s : Stand) : Prop :=
  ∀ t ∈ s.1.head?, fits t.kind = false

/-- The token at the front is left, if it does not fit. -/
theorem pass {f : Option Token → Production β} (ht : Passes fits s)
    (hf : Reads inLoop s (f none) b u) : Reads inLoop s (acceptWhere fits >>= f) b u := by
  refine bind (a := none) (v := s) ?_ hf
  rintro c - rfl
  right
  rw [acceptWhere]
  split
  · rename_i t rest hc
    have h := ht t (by simp [Cursor.stand, hc])
    simp [h]
  · rfl

/-- The token at the front is read, by its kind. -/
theorem acceptKind {f : Option Token → Production β} (ht : t.kind = kind)
    (hf : Reads inLoop (ts, i) (f (some t)) b u) :
    Reads inLoop (t :: ts, i) (Lox.Grammar.accept kind >>= f) b u :=
  accept (decide_eq_true ht) hf

/-- None of the marks is at the front. -/
theorem passes_marks {marks : List Mark} (h : ∀ m ∈ marks, ¬ s.Sees (.mark m)) :
    Passes (fun | .mark m => marks.contains m | _ => false) s := by
  intro t ht
  obtain ⟨ts, hts⟩ := List.head?_eq_some_iff.mp ht
  cases hk : t.kind with
  | mark m => exact Bool.eq_false_iff.mpr fun hm => h m (by simpa using hm) ⟨t, ts, hts, hk⟩
  | _ => rfl

/-- A token of another kind is left. -/
theorem passKind {f : Option Token → Production β} (ht : ¬ s.Sees kind)
    (hf : Reads inLoop s (f none) b u) : Reads inLoop s (Lox.Grammar.accept kind >>= f) b u := by
  refine pass (fun t h => decide_eq_false fun hk => ht ?_) hf
  obtain ⟨ts, hts⟩ := List.head?_eq_some_iff.mp h
  exact ⟨t, ts, hts, hk⟩

/-- A token that must be there is there. -/
theorem require {fault : SyntacticFault} {f : Token → Production β} (ht : t.kind = kind)
    (hf : Reads inLoop (ts, i) (f t) b u) :
    Reads inLoop (t :: ts, i) (Lox.Grammar.require kind fault >>= f) b u := by
  rw [Lox.Grammar.require, bind_assoc]
  exact acceptKind ht hf

/-- An occurrence gets the next number. -/
theorem freshRef {name : Token} {f : Ref → Production β}
    (hf : Reads inLoop (ts, i + 1) (f ⟨i, name⟩) b u) :
    Reads inLoop (ts, i) (Lox.Grammar.freshRef name >>= f) b u := by
  refine bind (a := ⟨i, name⟩) (v := (ts, i + 1)) ?_ hf
  rintro ⟨ahead, _, _, _, _, _⟩ - hs
  cases hs
  exact .inr rfl

/-- A look finds the kind. -/
theorem sees {f : Bool → Production β} (hs : s.Sees kind) (hf : Reads inLoop s (f true) b u) :
    Reads inLoop s (Lox.Grammar.sees kind >>= f) b u := by
  rintro c hl rfl
  show f (c.sees kind) c = _ ∨ f (c.sees kind) c = _
  rw [Cursor.sees_iff.mpr hs]
  exact hf c hl rfl

/-- A look does not find the kind. -/
theorem seesNot {f : Bool → Production β} (hs : ¬ s.Sees kind)
    (hf : Reads inLoop s (f false) b u) : Reads inLoop s (Lox.Grammar.sees kind >>= f) b u := by
  rintro c hl rfl
  show f (c.sees kind) c = _ ∨ f (c.sees kind) c = _
  rw [Bool.eq_false_iff.mpr fun h => hs (Cursor.sees_iff.mp h)]
  exact hf c hl rfl

/-- There is a token left. -/
theorem atEndNot {f : Bool → Production β} (hs : s.1 ≠ []) (hf : Reads inLoop s (f false) b u) :
    Reads inLoop s (Lox.Grammar.atEnd >>= f) b u := by
  rintro c hl rfl
  show f c.atEnd c = _ ∨ f c.atEnd c = _
  have hc : c.atEnd = false := Bool.eq_false_iff.mpr fun h => hs (List.isEmpty_iff.mp h)
  rw [hc]
  exact hf c hl rfl

/-- What may be left out is left out, in front of the token that follows it. -/
theorem omitted {x : Production α} (hs : s.Sees kind) :
    Reads inLoop s (unlessSees kind a x) a s := by
  rw [unlessSees]
  exact sees hs pure

/-- What may be left out is there, as it does not begin with the token that follows it. -/
theorem given {default : α} {x : Production α} (hs : ¬ s.Sees kind) (hx : Reads inLoop s x a u) :
    Reads inLoop s (unlessSees kind default x) a u := by
  rw [unlessSees]
  exact seesNot hs hx

/-- A part behind a token of its own, which is there. -/
theorem behind {x : Production α} {f : Option α → Production β} (ht : t.kind = kind)
    (hx : Reads inLoop (ts, i) (x >>= fun a => f (some a)) b u) :
    Reads inLoop (t :: ts, i) (Lox.Grammar.behind kind x >>= f) b u := by
  rw [Lox.Grammar.behind, bind_assoc]
  refine acceptKind ht ?_
  show Reads inLoop (ts, i) ((some <$> x) >>= f) b u
  rw [bind_map_left]
  exact hx

/-- A part behind a token of its own, which is not there. -/
theorem absent {x : Production α} {f : Option α → Production β} (hs : ¬ s.Sees kind)
    (hf : Reads inLoop s (f none) b u) :
    Reads inLoop s (Lox.Grammar.behind kind x >>= f) b u := by
  rw [Lox.Grammar.behind, bind_assoc]
  exact passKind hs hf

end Tokens

/-- Where a block is at the front nothing is reported. -/
theorem checkBlock {owner : BlockOwner} {x : Production β} (hs : s.Sees (.mark .leftBrace))
    (hx : Reads inLoop s x b u) :
    Reads inLoop s (Lox.Grammar.checkBlock owner >>= fun _ => x) b u := by
  rw [Lox.Grammar.checkBlock, bind_assoc]
  exact sees hs hx

/-- In a body of another depth, if this is greater than none where there is to be a loop around. -/
theorem withLoops {depth : Nat → Nat} {inside : Bool} {x : Production α}
    (hdepth : ∀ n, inside = true → 0 < depth n) (hx : Reads inside s x a u) :
    Reads inLoop s (Lox.Grammar.withLoops depth x) a u := by
  rintro c - rfl
  have h := hx { c with loopDepth := depth c.loopDepth } (hdepth _) rfl
  simp only [Lox.Grammar.withLoops, Action.keeping, Bind.bind, Action.update]
  rcases h with h | h
  · exact .inl (by rw [h])
  · exact .inr (by rw [h]; rfl)

/-- What does not fail needs no recovery. -/
theorem recover {x : Production α} (hx : Reads inLoop s x a u) :
    Reads inLoop s (.recover (some <$> x) resume) (some a) u := by
  intro c hl hs
  rcases hx.map (f := some) c hl hs with h | h
  · exact .inl (by rw [Action.recover, h])
  · exact .inr (by rw [Action.recover, h])

end Reads

/-- A token that does not fit is left where it is. -/
theorem acceptWhere_pass {fits : TokenKind → Bool} {c : Cursor} (h : Reads.Passes fits c.stand) :
    acceptWhere fits c = .done none c := by
  rw [acceptWhere]
  split
  · rename_i t rest hc
    have hfits := h t (by simp [Cursor.stand, hc])
    simp [hfits]
  · rfl

end Lox.Grammar
