import Lox.Grammar.Program
import Lox.Proofs.Grammar.Derivation
import Lox.Proofs.Grammar.Progress

/-!
  What a production gives where it reports nothing.

  `Gives g s p Q` says that wherever `p` starts at the stand `s` and succeeds without a report, the
  answer and the stand behind it are as `Q` says.  There is one rule for each way to put productions
  together; behind a part, what it gave may be used (`Gives.bind`), and behind a token, which one it
  was (`Gives.accept`).

  A report does not stop a production.  So what is said of the answer is said only for the case that at
  the end there is no report, and for that it must be known that reports stay: every production follows
  (`Follows`), and if there is none at the end there was none at any point before (`Follows.clean`).  This is
  why the judgment also says that the cursor behind follows that in front, with or without reports, and why
  some rules ask for `Tame` where they do not ask for `Gives`.

  The judgment names the stand in front but not the one behind, for a derivation is to be found, not given.
  What a production reads from a given derivation is the matter of `Reads`.
-/

namespace Lox.Grammar

variable {α β : Type}

/-! ## Where a cursor stands -/

/-- What of a cursor a derivation sees. -/
def Cursor.stand (c : Cursor) : Stand := (c.ahead, c.nextId)

/-- The token at the front is of the kind. -/
def Stand.Sees (s : Stand) (kind : TokenKind) : Prop := ∃ t ts, s.1 = t :: ts ∧ t.kind = kind

theorem Cursor.sees_iff {c : Cursor} {kind : TokenKind} :
    c.sees kind = true ↔ c.stand.Sees kind := by
  unfold Cursor.sees Stand.Sees Cursor.stand
  cases c.ahead with
  | nil => simp
  | cons t ts => simp

/-- What stays the same while a phrase is read. -/
structure Setting where
  /-- Whether a loop of the same function body is around. -/
  inLoop : Bool
  interactive : Bool

/-- The cursor is in the setting. -/
structure Setting.Fits (g : Setting) (c : Cursor) : Prop where
  inLoop : decide (0 < c.loopDepth) = g.inLoop
  interactive : c.interactive = g.interactive

/-- Reading goes on in the setting in which it began. -/
theorem Setting.Fits.of_follows {g : Setting} {c d : Cursor} (h : g.Fits c) (hf : Follows c d) :
    g.Fits d :=
  ⟨by rw [hf.loopDepth, h.inLoop], by rw [hf.interactive, h.interactive]⟩

/-! ## The judgment

  `Gives g s p Q`: if `p` succeeds from the stand `s` and reports nothing, `Q` holds of its tree and of where it
  stops.  One lemma for each step, so that a proof about a rule reads like the rule. -/

/-- Where the production succeeds from the stand without a report, `Q` holds of the answer and of the
    stand behind it. -/
def Gives (g : Setting) (s : Stand) (p : Production α) (Q : α → Stand → Prop) : Prop :=
  ∀ c, g.Fits c → c.stand = s → ∀ a d, p c = .done a d →
    Follows c d ∧ (d.problems = #[] → Q a d.stand)

namespace Gives

variable {g : Setting} {s : Stand}

/-- Less may be said of the answer. -/
theorem mono {p : Production α} {Q R : α → Stand → Prop} (h : Gives g s p Q)
    (hQ : ∀ a u, Q a u → R a u) : Gives g s p R := by
  intro c hg hs a d hp
  obtain ⟨hf, hq⟩ := h c hg hs a d hp
  exact ⟨hf, fun hd => hQ a _ (hq hd)⟩

/-- A tame production gives what holds anyway. -/
theorem of_tame {p : Production α} {Q : α → Stand → Prop} (h : Tame p) (hQ : ∀ a u, Q a u) :
    Gives g s p Q := by
  intro c hg hs a d hp
  exact ⟨h c d (by rw [hp]; rfl), fun _ => hQ a _⟩

/-- What holds in one case is only asked for in this case. -/
theorem imp {p : Production α} {Q : α → Stand → Prop} {H : Prop} (h : Tame p)
    (hQ : H → Gives g s p Q) : Gives g s p fun a u => H → Q a u := by
  by_cases hH : H
  · exact (hQ hH).mono fun a u hq _ => hq
  · exact of_tame h fun a u h => absurd h hH

/-- Nothing is read, and the answer is the one that is given. -/
theorem pure {Q : α → Stand → Prop} {a : α} (h : Q a s) : Gives g s (Pure.pure a) Q := by
  rintro c hg rfl b d ⟨⟩
  exact ⟨.refl c, fun _ => h⟩

/-- **Behind a part, what it gave may be used.** -/
theorem bind {x : Production α} {f : α → Production β} {P : α → Stand → Prop}
    {Q : β → Stand → Prop} (hx : Gives g s x P)
    (hf : ∀ a v, Gives g v (f a) fun b u => P a v → Q b u) : Gives g s (x >>= f) Q := by
  intro c hg hs b e h
  obtain ⟨a, d, hxc, hfd⟩ := Action.bind_eq_done_iff.mp h
  obtain ⟨hcd, hP⟩ := hx c hg hs a d hxc
  obtain ⟨hde, hQ⟩ := hf a d.stand d (hg.of_follows hcd) rfl b e hfd
  exact ⟨hcd.trans hde, fun he => hQ he (hP (hde.clean he))⟩

/-- An answer that is made of another. -/
theorem map {x : Production α} {f : α → β} {Q : β → Stand → Prop}
    (hx : Gives g s x fun a u => Q (f a) u) : Gives g s (f <$> x) Q := by
  rw [map_eq_pure_bind]
  exact .bind hx fun a v => .pure id

/-- Behind a token that may be read, it was at the front or none that fits was. -/
theorem accept {fits : TokenKind → Bool} {f : Option Token → Production β}
    {Q : β → Stand → Prop}
    (hsome : ∀ t ts i, s = (t :: ts, i) → fits t.kind = true → Gives g (ts, i) (f (some t)) Q)
    (hnone : (∀ t ts i, s = (t :: ts, i) → fits t.kind = false) → Gives g s (f none) Q) :
    Gives g s (acceptWhere fits >>= f) Q := by
  rintro c hg rfl b e h
  obtain ⟨a, d, hxc, hfd⟩ := Action.bind_eq_done_iff.mp h
  have hcd := tame_closed.acceptWhere fits c d (by rw [hxc]; rfl)
  -- The token in front fits and is taken, does not fit, or there is none.
  have key : Follows d e ∧ (e.problems = #[] → Q b e.stand) := by
    rw [acceptWhere] at hxc
    split at hxc
    · rename_i t ts hc
      split at hxc
      · rename_i hfits
        cases hxc
        exact hsome t ts c.nextId (by rw [Cursor.stand, hc]) hfits _ (hg.of_follows hcd) rfl b e hfd
      · rename_i hfits
        cases hxc
        refine hnone ?_ _ hg rfl b e hfd
        intro t' ts' i heq
        rw [Cursor.stand, hc] at heq
        cases heq
        exact Bool.eq_false_iff.mpr hfits
    · rename_i hc
      cases hxc
      refine hnone ?_ _ hg rfl b e hfd
      intro t' ts' i heq
      rw [Cursor.stand, hc] at heq
      cases heq
  exact ⟨hcd.trans key.1, key.2⟩

/-- Behind a token that may be read, by its kind. -/
theorem acceptKind {kind : TokenKind} {f : Option Token → Production β} {Q : β → Stand → Prop}
    (hsome : ∀ t ts i, s = (t :: ts, i) → t.kind = kind → Gives g (ts, i) (f (some t)) Q)
    (hnone : (∀ t ts i, s = (t :: ts, i) → t.kind ≠ kind) → Gives g s (f none) Q) :
    Gives g s (Lox.Grammar.accept kind >>= f) Q :=
  .accept (fun t ts i hs ht => hsome t ts i hs (of_decide_eq_true ht))
    fun h => hnone fun t ts i hs => of_decide_eq_false (h t ts i hs)

/-- Behind a token that must be read, it was at the front. -/
theorem require {kind : TokenKind} {fault : SyntacticFault} {f : Token → Production β}
    {Q : β → Stand → Prop}
    (h : ∀ t ts i, s = (t :: ts, i) → t.kind = kind → Gives g (ts, i) (f t) Q) :
    Gives g s (Lox.Grammar.require kind fault >>= f) Q := by
  rw [Lox.Grammar.require, bind_assoc]
  refine .acceptKind h fun _ => ?_
  rintro c hg hs b e hrun
  obtain ⟨a, d, ⟨⟩, -⟩ := Action.bind_eq_done_iff.mp hrun

/-- Behind the number for an occurrence the next one is greater by one. -/
theorem freshRef {name : Token} {f : Ref → Production β} {Q : β → Stand → Prop}
    (h : Gives g (s.1, s.2 + 1) (f ⟨s.2, name⟩) Q) :
    Gives g s (Lox.Grammar.freshRef name >>= f) Q := by
  rintro c hg rfl b e hrun
  have hcd : Follows c { c with nextId := c.nextId + 1 } :=
    ⟨List.suffix_refl _, rfl, rfl, rfl, Nat.le_succ _, id⟩
  obtain ⟨hde, hQ⟩ := h { c with nextId := c.nextId + 1 } (hg.of_follows hcd) rfl b e hrun
  exact ⟨hcd.trans hde, hQ⟩

/-- A look at the front reads nothing, and tells which of two ways is gone. -/
theorem sees {kind : TokenKind} {f : Bool → Production β} {Q : β → Stand → Prop}
    (htrue : s.Sees kind → Gives g s (f true) Q) (hfalse : ¬ s.Sees kind → Gives g s (f false) Q) :
    Gives g s (Lox.Grammar.sees kind >>= f) Q := by
  rintro c hg rfl b e hrun
  replace hrun : f (c.sees kind) c = .done b e := hrun
  cases hc : c.sees kind with
  | true =>
    rw [hc] at hrun
    exact htrue (Cursor.sees_iff.mp hc) c hg rfl b e hrun
  | false =>
    rw [hc] at hrun
    refine hfalse (fun hs => ?_) c hg rfl b e hrun
    rw [Cursor.sees_iff.mpr hs] at hc
    cases hc

/-- A look whether there is a token left. -/
theorem atEnd {f : Bool → Production β} {Q : β → Stand → Prop}
    (htrue : s.1 = [] → Gives g s (f true) Q) (hfalse : s.1 ≠ [] → Gives g s (f false) Q) :
    Gives g s (Lox.Grammar.atEnd >>= f) Q := by
  rintro c hg rfl b e hrun
  replace hrun : f c.atEnd c = .done b e := hrun
  cases hc : c.ahead with
  | nil =>
    rw [Cursor.atEnd, hc] at hrun
    exact htrue hc c hg rfl b e hrun
  | cons t ts =>
    rw [Cursor.atEnd, hc] at hrun
    exact hfalse (by simp [Cursor.stand, hc]) c hg rfl b e hrun

/-- What may be left out is left out or read; the token that tells which is not read. -/
theorem unlessSees {kind : TokenKind} {default : α} {x : Production α} {f : α → Production β}
    {Q : β → Stand → Prop} (hdefault : Gives g s (f default) Q)
    (hx : Gives g s (x >>= f) Q) : Gives g s (Lox.Grammar.unlessSees kind default x >>= f) Q := by
  rw [Lox.Grammar.unlessSees, bind_assoc]
  exact .sees (fun _ => hdefault) fun _ => hx

/-- A part behind a token of its own is there together with this token, or neither is. -/
theorem behind {kind : TokenKind} {x : Production α} {f : Option α → Production β}
    {Q : β → Stand → Prop}
    (hsome : ∀ t ts i, s = (t :: ts, i) → t.kind = kind →
      Gives g (ts, i) (x >>= fun a => f (some a)) Q)
    (hnone : Gives g s (f none) Q) : Gives g s (Lox.Grammar.behind kind x >>= f) Q := by
  rw [Lox.Grammar.behind, bind_assoc]
  refine .acceptKind (fun t ts i hs ht => ?_) fun _ => hnone
  show Gives g (ts, i) ((some <$> x) >>= f) Q
  rw [bind_map_left]
  exact hsome t ts i hs ht

/-- A report spoils the reading, so a block is at the front. -/
theorem checkBlock {owner : BlockOwner} {x : Production β} {Q : β → Stand → Prop}
    (hx : Gives g s x fun b u => s.Sees (.mark .leftBrace) → Q b u) :
    Gives g s (Lox.Grammar.checkBlock owner >>= fun _ => x) Q := by
  rw [Lox.Grammar.checkBlock, bind_assoc]
  refine .sees (fun hs => hx.mono fun b u h => h hs) fun _ => ?_
  rintro c hg rfl b e hrun
  have hcd := Follows.report c (.syntactic c.current (.noBlock owner))
  obtain ⟨hde, -⟩ := hx _ (hg.of_follows hcd) rfl b e hrun
  -- With a report here there is one at the end, so nothing is to be shown.
  refine ⟨hcd.trans hde, fun he => absurd (hde.clean he) ?_⟩
  simp [Cursor.report]

/-- In a body of another depth the setting is another one, and behind it the first one again. -/
theorem withLoops {depth : Nat → Nat} {inLoop : Bool} {x : Production α} {Q : α → Stand → Prop}
    (hdepth : ∀ n, decide (0 < depth n) = inLoop)
    (hx : Gives ⟨inLoop, g.interactive⟩ s x Q) : Gives g s (Lox.Grammar.withLoops depth x) Q := by
  rintro c hg rfl a d h
  simp only [Lox.Grammar.withLoops, Action.keeping, Bind.bind, Action.update] at h
  cases hxc : x { c with loopDepth := depth c.loopDepth } with
  | done b e =>
    simp only [hxc] at h
    cases h
    have inner : Setting.Fits ⟨inLoop, g.interactive⟩ { c with loopDepth := depth c.loopDepth } :=
      ⟨hdepth _, hg.interactive⟩
    obtain ⟨hf, hQ⟩ := hx _ inner rfl _ _ hxc
    exact ⟨⟨hf.ahead, hf.finish, hf.interactive, rfl, hf.nextId, hf.clean⟩, hQ⟩
  | failed p e =>
    simp only [hxc] at h
    cases h
  | exhausted =>
    simp only [hxc] at h
    cases h

/-- A failed declaration is reported, which spoils the reading. -/
theorem recover {x : Production α} {Q : α → Stand → Prop} (hx : Gives g s x Q) (ht : Tame x) :
    Gives g s (.recover (some <$> x) resume) fun a u => ∃ b, a = some b ∧ Q b u := by
  intro c hg hs a d h
  refine ⟨tame_closed.recover ht c d (by rw [h]; rfl), fun hd => ?_⟩
  simp only [Action.recover, map_eq_pure_bind, Bind.bind] at h
  cases hxc : x c with
  | done b e =>
    simp only [hxc] at h
    cases h
    exact ⟨b, rfl, (hx c hg hs b d hxc).2 hd⟩
  | failed p e =>
    simp only [hxc] at h
    simp only [resume, Bind.bind, Action.update, skipToBoundary, Cursor.report] at h
    cases h
    split at hd <;> simp at hd
  | exhausted =>
    simp only [hxc] at h
    cases h

end Gives

end Lox.Grammar
