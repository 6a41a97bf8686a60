import Lox.Proofs.Grammar.Fuel
import Lox.Proofs.Reading.Recipes

/-!
  The calls of a reading.

  A call is a rule that is about to be read, at a cursor and with some fuel (`Call`).  Its recipe shows what it
  comes to (`Recipe.Does`): the looks that it takes at the cursor, the calls that it makes, and the problems that
  it tells, be it by a report or by a failure.  A call reaches the calls that it makes, those that these make,
  and so on; the rules on the way are the ones that are being read there (`Call.Reaches`).

  What is said here holds of all recipes, by induction on how they are put together, and so of all rules:

  * a law of productions holds of every reading (`Closed.ofRule`);
  * more fuel changes nothing about a reading that came to an end (`Rule.read_of_le`);
  * reading never goes back, and numbers go on (`Beyond`, `Call.Reaches.beyond`);
  * a call that is reached by one that ends does end itself (`Call.Reaches.ends`), with fuel left;
  * what is told in the end was told on the way, and nothing that is told on the way is forgotten
    (`Call.mem_diagnostics_iff`): the problems of a program are what its calls tell.
-/

namespace Lox.Grammar

variable {α β : Type} {ρ : Reading}

/-! ## How loops and recoveries run -/

/-- Where a failed declaration is given up: behind a report, at the next boundary. -/
def Cursor.giveUp (c : Cursor) (problem : Diagnostic) : Cursor :=
  match c.ahead with
  | [] => c.report problem
  | t :: rest => { c.report problem with ahead := nextBoundary t rest }

@[simp] theorem Cursor.giveUp_problems (c : Cursor) (problem : Diagnostic) :
    (c.giveUp problem).problems = c.problems.push problem := by
  unfold giveUp
  split <;> rfl

@[simp] theorem Cursor.giveUp_nextId (c : Cursor) (problem : Diagnostic) :
    (c.giveUp problem).nextId = c.nextId := by
  unfold giveUp
  split <;> rfl

@[simp] theorem Cursor.giveUp_loopDepth (c : Cursor) (problem : Diagnostic) :
    (c.giveUp problem).loopDepth = c.loopDepth := by
  unfold giveUp
  split <;> rfl

theorem resume_run (problem : Diagnostic) (c : Cursor) :
    (resume problem : Production (Option α)) c = .done none (c.giveUp problem) := by
  obtain ⟨ahead, _, _, _, _, _⟩ := c
  cases ahead <;> rfl

/-- The number of loops is put back, however the reading ends. -/
theorem withLoops_run (depth : Nat → Nat) (x : Production α) (c : Cursor) :
    withLoops depth x c =
      match x { c with loopDepth := depth c.loopDepth } with
      | .done a d => .done a { d with loopDepth := c.loopDepth }
      | .failed p d => .failed p { d with loopDepth := c.loopDepth }
      | .exhausted => .exhausted := by
  simp only [withLoops, Action.keeping, bind, Action.update]
  cases x { c with loopDepth := depth c.loopDepth } <;> rfl

/-- A failure is given up. -/
theorem recover_run (x : Production α) (c : Cursor) :
    Action.recover (some <$> x) resume c =
      match x c with
      | .done a d => .done (some a) d
      | .failed p d => .done none (d.giveUp p)
      | .exhausted => .exhausted := by
  rw [map_eq_pure_bind]
  cases hx : x c with
  | done a d => rw [Action.recover, Action.bind_of_done hx]; rfl
  | failed p d =>
    rw [Action.recover, Action.bind_of_failed hx]
    exact resume_run p d
  | exhausted => rw [Action.recover, Action.bind_of_exhausted hx]

/-! ## Laws of all readings -/

/-- A law of productions holds of what is put together by a recipe. -/
theorem Closed.ofRecipe {P : {α : Type} → Production α → Prop} (h : Closed P)
    (hρ : ∀ r, P (ρ r)) (x : Recipe α) : P (x.run ρ) := by
  induction x with
  | pure a => exact h.pure a
  | bind x f ihx ihf => exact h.bind ihx ihf
  | acceptWhere fits => exact h.acceptWhere fits
  | look view _ => exact h.read view
  | report token fault => exact h.report token fault
  | fail fault => exact h.failHere fault
  | number name => exact h.freshRef name
  | withLoops depth x ih => exact h.withLoops depth ih
  | recover x ih => exact h.recover ih
  | rule r => exact hρ r

/-- A law of productions holds of reading by every rule. -/
theorem Closed.ofRule {P : {α : Type} → Production α → Prop} (h : Closed P) (r : Rule) (fuel : Nat) :
    P (r.read fuel) := by
  induction fuel generalizing r with
  | zero =>
    rw [r.read_zero]
    exact h.outOfFuel
  | succ fuel ih =>
    rw [r.read_succ]
    exact h.ofRecipe ih _

/-- Every rule is tame, since the productions that it is put together from are. -/
theorem Rule.tame (r : Rule) (fuel : Nat) : Tame (r.read fuel) := tame_closed.ofRule r fuel

/-! ## More fuel -/

/-- Where every rule reads as before if that came to an end, so does what is put together of them. -/
theorem Recipe.run_mono {σ : Reading} (h : ∀ r c, ρ r c ≠ .exhausted → σ r c = ρ r c) (x : Recipe α)
    (c : Cursor) (hx : x.run ρ c ≠ .exhausted) : x.run σ c = x.run ρ c := by
  -- A sequence is the only constructor with something to do: what comes first ends, and in the same way; the
  -- second part starts where it has ended.
  induction x generalizing c with
  | bind x f ihx ihf =>
    show (x.run σ >>= fun a => (f a).run σ) c = (x.run ρ >>= fun a => (f a).run ρ) c
    cases hxc : x.run ρ c with
    | done a d =>
      have hsame : x.run σ c = .done a d := (ihx c (by rw [hxc]; exact nofun)).trans hxc
      rw [Action.bind_of_done hsame, Action.bind_of_done hxc]
      exact ihf a d fun he => hx ((Action.bind_of_done hxc).trans he)
    | failed p d =>
      have hsame : x.run σ c = .failed p d := (ihx c (by rw [hxc]; exact nofun)).trans hxc
      rw [Action.bind_of_failed hsame, Action.bind_of_failed hxc]
    | exhausted => exact absurd (Action.bind_of_exhausted hxc) hx
  | withLoops depth x ih =>
    simp only [run, withLoops_run] at hx ⊢
    rw [ih _ fun he => hx (by rw [he])]
  | recover x ih =>
    simp only [run, recover_run] at hx ⊢
    rw [ih _ fun he => hx (by rw [he])]
  | rule r => exact h r c hx
  | _ => rfl

/-- A reading that came to an end is the same with more fuel. -/
theorem Rule.read_of_le {r : Rule} {n m : Nat} {c : Cursor} (h : r.read n c ≠ .exhausted)
    (hnm : n ≤ m) : r.read m c = r.read n c := by
  induction n generalizing r m c with
  | zero => exact absurd (by rw [r.read_zero]; rfl) h
  | succ n ih =>
    obtain ⟨m, rfl⟩ := Nat.exists_eq_add_of_lt hnm
    rw [r.read_succ] at h
    rw [r.read_succ, r.read_succ]
    exact Recipe.run_mono (fun q d hq => ih hq (by omega)) _ c h

/-- A reading that is done is done with more fuel. -/
theorem Rule.done_of_le {r : Rule} {n m : Nat} {c d : Cursor} {a : r.Tree} (h : r.read n c = .done a d)
    (hnm : n ≤ m) : r.read m c = .done a d :=
  (Rule.read_of_le (by rw [h]; exact nofun) hnm).trans h

/-! ## What a recipe comes to

  A recipe is the text of a production.  Going through it says which deeds are done, and which productions are
  called, on the way. -/

/-- What is done on the way. -/
inductive Deed where
  /-- A look at the cursor. -/
  | look
  | call (rule : Rule)
  | tell (problem : Diagnostic)

/-- Put together by the recipe, reading from the first cursor comes to the deed at the second. -/
def Recipe.Does (ρ : Reading) : {α : Type} → Recipe α → Cursor → Deed → Cursor → Prop
  | _, .bind x f, c, deed, d =>
    x.Does ρ c deed d ∨ ∃ a e, x.run ρ c = .done a e ∧ (f a).Does ρ e deed d
  | _, .report token fault, c, deed, d => deed = .tell (.syntactic token fault) ∧ d = c
  | _, .fail fault, c, deed, d => deed = .tell (.syntactic c.current fault) ∧ d = c
  | _, .withLoops depth x, c, deed, d => x.Does ρ { c with loopDepth := depth c.loopDepth } deed d
  | _, .recover x, c, deed, d => x.Does ρ c deed d
  | _, .rule r, c, deed, d => deed = .call r ∧ d = c
  | _, .acceptWhere _, c, deed, d | _, .look _ _, c, deed, d => deed = .look ∧ d = c
  | _, .pure _, _, _, _ | _, .number _, _, _, _ => False

/-- What has been reported when the production ended, and what it failed with. -/
def told : Ending Cursor Diagnostic α → List Diagnostic
  | .done _ c => c.problems.toList
  | .failed p c => c.problems.toList ++ [p]
  | .exhausted => []

/-- What the deed leads to being told. -/
def Deed.told (ρ : Reading) (d : Cursor) : Deed → List Diagnostic
  | look => []
  | call r => Grammar.told (ρ r d)
  | tell p => [p]

/-- A reading that is done tells what its cursor has. -/
theorem mem_told_done {a : α} {c : Cursor} {p : Diagnostic} :
    p ∈ told (.done a c) ↔ p ∈ c.problems := Array.mem_toList_iff

/-- A reading that failed tells that as well. -/
theorem mem_told_failed {problem : Diagnostic} {c : Cursor} {p : Diagnostic} :
    p ∈ told (.failed problem c : Ending Cursor Diagnostic α) ↔ p ∈ c.problems ∨ p = problem := by
  rw [told, List.mem_append, Array.mem_toList_iff, List.mem_singleton]

/-- To take a token tells nothing. -/
theorem mem_told_acceptWhere {fits : TokenKind → Bool} {c : Cursor} {p : Diagnostic} :
    p ∈ told (acceptWhere fits c) ↔ p ∈ c.problems := by
  rw [acceptWhere]
  repeat' split
  all_goals exact mem_told_done

/-- A report tells what it reports. -/
theorem mem_told_report {token : Token} {fault : SyntacticFault} {c : Cursor} {p : Diagnostic} :
    p ∈ told (report token fault c) ↔ p ∈ c.problems ∨ p = .syntactic token fault :=
  mem_told_done.trans Array.mem_push

/-- A failure tells itself. -/
theorem mem_told_failHere {fault : SyntacticFault} {c : Cursor} {p : Diagnostic} :
    p ∈ told (failHere fault c : Ending Cursor Diagnostic α) ↔
      p ∈ c.problems ∨ p = .syntactic c.current fault :=
  mem_told_failed

theorem mem_told_freshRef {name : Token} {c : Cursor} {p : Diagnostic} :
    p ∈ told (freshRef name c) ↔ p ∈ c.problems := Array.mem_toList_iff

/-- What had been reported before is told in the end. -/
def Remembers (x : Production α) : Prop := ∀ c, x c ≠ .exhausted → ∀ p ∈ c.problems, p ∈ told (x c)

/-- The number of loops does not matter to what is told. -/
theorem told_withLoops (depth : Nat → Nat) (x : Production α) (c : Cursor) :
    told (withLoops depth x c) = told (x { c with loopDepth := depth c.loopDepth }) := by
  rw [withLoops_run]
  cases x { c with loopDepth := depth c.loopDepth } <;> rfl

/-- What a failure was about is told, be it given up or not. -/
theorem mem_told_recover {x : Production α} {c : Cursor} {p : Diagnostic} :
    p ∈ told (Action.recover (some <$> x) resume c) ↔ p ∈ told (x c) := by
  rw [recover_run]
  cases x c with
  | done a d => exact Iff.rfl
  | failed problem d => simp [told]
  | exhausted => exact Iff.rfl

/-- No production forgets what has been told before it. -/
theorem remembers_closed : Closed @Remembers where
  pure a c _ p hp := mem_told_done.mpr hp
  bind := by
    intro α β x f hx hf c h p hp
    cases hxc : x c with
    | done a d =>
      -- What the first step has been told is still known behind it.
      have hd := hx c (by rw [hxc]; exact nofun) p hp
      rw [hxc] at hd
      rw [Action.bind_of_done hxc] at h ⊢
      exact hf a d h p (mem_told_done.mp hd)
    | failed q d =>
      have hd := hx c (by rw [hxc]; exact nofun) p hp
      rw [hxc] at hd
      rw [Action.bind_of_failed hxc]
      exact hd
    | exhausted => exact absurd (Action.bind_of_exhausted hxc) h
  acceptWhere fits c _ p hp := mem_told_acceptWhere.mpr hp
  read view c _ p hp := mem_told_done.mpr hp
  report token fault c _ p hp := mem_told_report.mpr (.inl hp)
  failHere fault c _ p hp := mem_told_failHere.mpr (.inl hp)
  freshRef name c _ p hp := mem_told_freshRef.mpr hp
  withLoops := by
    intro α depth x hx c h p hp
    rw [told_withLoops]
    refine hx _ (fun he => h ?_) p hp
    rw [withLoops_run, he]
  outOfFuel c h := absurd rfl h
  recover := by
    intro α x hx c h p hp
    rw [mem_told_recover]
    refine hx c (fun he => h ?_) p hp
    rw [recover_run, he]

namespace Recipe

variable {x : Recipe α} {c d : Cursor} {deed : Deed}

/-- A reading that comes to an end calls only readings that do. -/
theorem Does.ends {r : Rule} (h : x.Does ρ c (.call r) d) (hx : x.run ρ c ≠ .exhausted) :
    ρ r d ≠ .exhausted := by
  induction x generalizing c with
  | bind x f ihx ihf =>
    rcases h with h | ⟨a, e, hxc, h⟩
    · exact ihx h fun he => hx (Action.bind_of_exhausted he)
    · exact ihf a h fun he => hx ((Action.bind_of_done hxc).trans he)
  | withLoops depth x ih => exact ih h fun he => hx (by simp only [run, withLoops_run, he])
  | recover x ih => exact ih h fun he => hx (by simp only [run, recover_run, he])
  | rule r =>
    obtain ⟨⟨⟩, rfl⟩ := h
    exact hx
  | pure a => exact h.elim
  | number name => exact h.elim
  | _ => exact absurd h.1 nofun

/-- What is told on the way is told in the end. -/
theorem Does.told (h : x.Does ρ c deed d) (hρ : ∀ r, Remembers (ρ r)) (hx : x.run ρ c ≠ .exhausted)
    {p : Diagnostic} (hp : p ∈ deed.told ρ d) : p ∈ Grammar.told (x.run ρ c) := by
  induction x generalizing c with
  | bind x f ihx ihf =>
    show p ∈ Grammar.told ((x.run ρ >>= fun a => (f a).run ρ) c)
    rcases h with h | ⟨a, e, hxc, h⟩
    -- The deed is one of the first part: what it tells is there when the second part begins, and is not
    -- forgotten.
    · have hfirst := ihx h fun he => hx (Action.bind_of_exhausted he)
      cases hxc : x.run ρ c with
      | done a e =>
        rw [hxc] at hfirst
        rw [Action.bind_of_done hxc]
        refine remembers_closed.ofRecipe hρ (f a) e (fun he => hx ?_) p (mem_told_done.mp hfirst)
        exact (Action.bind_of_done hxc).trans he
      | failed q e =>
        rw [hxc] at hfirst
        rw [Action.bind_of_failed hxc]
        exact hfirst
      | exhausted => exact absurd (Action.bind_of_exhausted hxc) hx
    · rw [Action.bind_of_done hxc]
      exact ihf a h fun he => hx ((Action.bind_of_done hxc).trans he)
  | withLoops depth x ih =>
    simp only [run, told_withLoops]
    exact ih h fun he => hx (by simp only [run, withLoops_run, he])
  | recover x ih =>
    simp only [run, mem_told_recover]
    exact ih h fun he => hx (by simp only [run, recover_run, he])
  | rule r =>
    obtain ⟨rfl, rfl⟩ := h
    exact hp
  | report token fault =>
    obtain ⟨rfl, rfl⟩ := h
    exact mem_told_report.mpr (.inr (List.mem_singleton.mp hp))
  | fail fault =>
    obtain ⟨rfl, rfl⟩ := h
    exact mem_told_failHere.mpr (.inr (List.mem_singleton.mp hp))
  | acceptWhere fits =>
    obtain ⟨rfl, -⟩ := h
    cases hp
  | look view blind =>
    obtain ⟨rfl, -⟩ := h
    cases hp
  | pure a => exact h.elim
  | number name => exact h.elim

/-- What is told in the end had been reported before, or was told on the way. -/
theorem does_of_told {p : Diagnostic} (hp : p ∈ told (x.run ρ c)) :
    p ∈ c.problems ∨ ∃ deed d, x.Does ρ c deed d ∧ p ∈ deed.told ρ d ∧ p ∉ d.problems := by
  induction x generalizing c with
  | bind x f ihx ihf =>
    -- What the first part did stands before what the second one did.
    have hfirst : p ∈ told (x.run ρ c) →
        p ∈ c.problems ∨ ∃ deed d, (bind x f).Does ρ c deed d ∧ p ∈ deed.told ρ d ∧ p ∉ d.problems := by
      intro h
      rcases ihx h with h | ⟨deed, d, hdoes, htold⟩
      · exact .inl h
      · exact .inr ⟨deed, d, .inl hdoes, htold⟩
    replace hp : p ∈ told ((x.run ρ >>= fun a => (f a).run ρ) c) := hp
    cases hxc : x.run ρ c with
    | done a e =>
      rw [Action.bind_of_done hxc] at hp
      rcases ihf a hp with h | ⟨deed, d, hdoes, htold⟩
      · exact hfirst (by rw [hxc]; exact mem_told_done.mpr h)
      · exact .inr ⟨deed, d, .inr ⟨a, e, hxc, hdoes⟩, htold⟩
    | failed q e =>
      rw [Action.bind_of_failed hxc] at hp
      exact hfirst (by rw [hxc]; exact hp)
    | exhausted =>
      rw [Action.bind_of_exhausted hxc] at hp
      cases hp
  | withLoops depth x ih =>
    simp only [run, told_withLoops] at hp
    exact ih hp
  | recover x ih =>
    simp only [run, mem_told_recover] at hp
    exact ih hp
  | rule r =>
    by_cases hc : p ∈ c.problems
    · exact .inl hc
    · exact .inr ⟨.call r, c, ⟨rfl, rfl⟩, hp, hc⟩
  | report token fault =>
    by_cases hc : p ∈ c.problems
    · exact .inl hc
    · have hnew := (mem_told_report.mp hp).resolve_left hc
      exact .inr ⟨.tell p, c, ⟨by rw [hnew], rfl⟩, List.mem_singleton_self p, hc⟩
  | fail fault =>
    by_cases hc : p ∈ c.problems
    · exact .inl hc
    · have hnew := (mem_told_failHere.mp hp).resolve_left hc
      exact .inr ⟨.tell p, c, ⟨by rw [hnew], rfl⟩, List.mem_singleton_self p, hc⟩
  | acceptWhere fits => exact .inl (mem_told_acceptWhere.mp hp)
  | pure a => exact .inl (mem_told_done.mp hp)
  | look view blind => exact .inl (mem_told_done.mp hp)
  | number name => exact .inl (mem_told_freshRef.mp hp)

end Recipe

/-! ## What lies behind a cursor -/

/-- The second cursor lies behind the first, perhaps in other loops. -/
def Beyond (c d : Cursor) : Prop := Follows c { d with loopDepth := c.loopDepth }

namespace Beyond

/-- A cursor is beyond itself. -/
theorem refl (c : Cursor) : Beyond c c := Follows.refl c

/-- Where a reading ends is beyond where it began. -/
theorem of_follows {c d : Cursor} (h : Follows c d) : Beyond c d :=
  ⟨h.ahead, h.finish, h.interactive, rfl, h.nextId, h.clean⟩

/-- What is beyond is so step by step. -/
theorem trans {c d e : Cursor} (h : Beyond c d) (h' : Beyond d e) : Beyond c e :=
  ⟨h'.ahead.trans h.ahead, h'.finish.trans h.finish, h'.interactive.trans h.interactive, rfl,
    Nat.le_trans h.nextId h'.nextId, fun hc => h.clean (h'.clean hc)⟩

end Beyond

/-- What a recipe comes to lies behind where it started. -/
theorem Recipe.Does.beyond {x : Recipe α} {c d : Cursor} {deed : Deed} (h : x.Does ρ c deed d)
    (hρ : ∀ r, Tame (ρ r)) : Beyond c d := by
  induction x generalizing c with
  | bind x f ihx ihf =>
    rcases h with h | ⟨a, e, hxc, h⟩
    · exact ihx h
    · have hce := tame_closed.ofRecipe hρ x c e (by rw [hxc]; rfl)
      exact (Beyond.of_follows hce).trans (ihf a h)
  | withLoops depth x ih =>
    have hin : Beyond c { c with loopDepth := depth c.loopDepth } := Beyond.refl c
    exact hin.trans (ih h)
  | recover x ih => exact ih h
  | pure a => exact h.elim
  | number name => exact h.elim
  | _ => exact h.2 ▸ .refl c

/-! ## Calls

  The calls of a whole reading form a tree; a path in it says which rules are at work. -/

/-- A rule that is about to be read. -/
structure Call where
  fuel : Nat
  rule : Rule
  cursor : Cursor

namespace Call

/-- How the reading ends. -/
def ending (κ : Call) : Ending Cursor Diagnostic κ.rule.Tree := κ.rule.read κ.fuel κ.cursor

/-- What the call comes to itself. -/
inductive Does : Call → Deed → Cursor → Prop where
  | by_recipe {n r c deed d} : (Recipe.ofRule r).Does (fun q => q.read n) c deed d →
    Does ⟨n + 1, r, c⟩ deed d

/-- The first call makes the second. -/
inductive Makes : Call → Call → Prop where
  | call {n r c q d} : Does ⟨n + 1, r, c⟩ (.call q) d → Makes ⟨n + 1, r, c⟩ ⟨n, q, d⟩

/-- The first call reaches the second; the rules that are being read there are listed, the innermost
    one first. -/
inductive Reaches (κ : Call) : List Rule → Call → Prop where
  | start : Reaches κ [κ.rule] κ
  | call {path μ ν} : Reaches κ path μ → μ.Makes ν → Reaches κ (ν.rule :: path) ν

variable {κ μ ν : Call} {path : List Rule}

/-- Whatever a call does, it does beyond its cursor. -/
theorem Does.beyond {deed : Deed} {d : Cursor} (h : κ.Does deed d) : Beyond κ.cursor d := by
  cases h with
  | by_recipe h => exact h.beyond fun q => q.tame _

/-- The calls that it makes are beyond its cursor. -/
theorem Makes.beyond (h : κ.Makes μ) : Beyond κ.cursor μ.cursor := by
  cases h with
  | call h => exact h.beyond

/-- **Reading never goes back.** -/
theorem Reaches.beyond (h : κ.Reaches path μ) : Beyond κ.cursor μ.cursor := by
  induction h with
  | start => exact .refl _
  | call _ hmakes ih => exact ih.trans hmakes.beyond

/-- A call that is made by one that ends does end. -/
theorem Makes.ends (h : κ.Makes μ) (hκ : κ.ending ≠ .exhausted) : μ.ending ≠ .exhausted := by
  cases h with
  | @call n r c q d h =>
    cases h with
    | by_recipe h =>
      rw [ending, Rule.read_succ] at hκ
      exact h.ends hκ

/-- A reading that comes to an end reaches only readings that do. -/
theorem Reaches.ends (h : κ.Reaches path μ) (hκ : κ.ending ≠ .exhausted) : μ.ending ≠ .exhausted := by
  induction h with
  | start => exact hκ
  | call _ hmakes ih => exact hmakes.ends ih

/-- The first calls may be taken together. -/
theorem Makes.reaches (h : κ.Makes μ) (hμ : μ.Reaches path ν) : κ.Reaches (path ++ [κ.rule]) ν := by
  induction hμ with
  | start => exact .call .start h
  | call _ hmakes ih => exact .call ih hmakes

/-- No rule forgets what has been told before it. -/
theorem remembers (r : Rule) (n : Nat) : Remembers (r.read n) := remembers_closed.ofRule r n

theorem Does.told {deed : Deed} {d : Cursor} {n : Nat} {r : Rule} {c : Cursor}
    (h : Does ⟨n + 1, r, c⟩ deed d) (hκ : r.read (n + 1) c ≠ .exhausted) {p : Diagnostic}
    (hp : p ∈ deed.told (fun q => q.read n) d) : p ∈ told (r.read (n + 1) c) := by
  cases h with
  | by_recipe h =>
    rw [Rule.read_succ] at hκ ⊢
    exact h.told (fun q => remembers q n) hκ hp

/-- What a call tells in the end its caller tells in the end. -/
theorem Makes.told (h : κ.Makes μ) (hκ : κ.ending ≠ .exhausted) {p : Diagnostic}
    (hp : p ∈ told μ.ending) : p ∈ told κ.ending := by
  cases h with
  | call h => exact h.told hκ hp

/-- What is told on the way is told in the end. -/
theorem Reaches.told (h : κ.Reaches path μ) (hκ : κ.ending ≠ .exhausted) {p : Diagnostic}
    (hp : p ∈ told μ.ending) : p ∈ told κ.ending := by
  induction h with
  | start => exact hp
  | call hreaches hmakes ih => exact ih (hmakes.told (hreaches.ends hκ) hp)

/-- **What is told in the end had been reported before, or was told on the way.** -/
theorem reaches_of_told {p : Diagnostic} (hp : p ∈ Grammar.told κ.ending) :
    p ∈ κ.cursor.problems ∨ ∃ path μ d, κ.Reaches path μ ∧ μ.Does (.tell p) d := by
  obtain ⟨n, r, c⟩ := κ
  -- By the fuel: a problem that is new was told by this call itself, or by one that it makes.
  induction n generalizing r c with
  | zero =>
    rw [ending, r.read_zero] at hp
    cases hp
  | succ n ih =>
    rw [ending, Rule.read_succ] at hp
    rcases Recipe.does_of_told hp with h | ⟨deed, d, hdoes, hdeed, hnew⟩
    · exact .inl h
    · right
      cases deed with
      | look => cases hdeed
      | tell q =>
        cases List.mem_singleton.mp hdeed
        exact ⟨_, _, d, .start, .by_recipe hdoes⟩
      | call q =>
        rcases ih q d hdeed with h | ⟨path, μ, e, hreaches, htells⟩
        · exact absurd h hnew
        · exact ⟨_, μ, e, (Makes.call (.by_recipe hdoes)).reaches hreaches, htells⟩

/-- The call that reads a whole program. -/
def program (tokens : List Token) (interactive : Bool) (firstId : Nat) : Call where
  fuel := enoughFuel (Cursor.start tokens interactive firstId).ahead.length
  rule := .declarations false
  cursor := Cursor.start tokens interactive firstId

variable {tokens : List Token} {interactive : Bool} {firstId : Nat}

/-- The fuel of a program is enough, so that reading it comes to an end. -/
theorem program_ends : (program tokens interactive firstId).ending ≠ .exhausted :=
  declarations_ends _ _

/-- Reading a program comes to no call without fuel. -/
theorem Reaches.fuel_pos (h : (program tokens interactive firstId).Reaches path μ) : 0 < μ.fuel := by
  rcases μ with ⟨n, r, c⟩
  refine Nat.pos_of_ne_zero fun hn => h.ends program_ends ?_
  rw [ending, show n = 0 from hn, r.read_zero]
  rfl

/-- The diagnostics of a program are what was told. -/
theorem diagnostics_eq : (parse tokens interactive firstId).diagnostics =
    Grammar.told (program tokens interactive firstId).ending := by
  rw [parse, ending]
  show _ = Grammar.told (declarations _ false _)
  dsimp only [program]
  cases declarations (enoughFuel (Cursor.start tokens interactive firstId).ahead.length) false
      (Cursor.start tokens interactive firstId) with
  | done program d => rfl
  | failed problem d => exact Array.toList_push
  | exhausted => rfl

/-- **A diagnostic of a program is what was told on the way.** -/
theorem mem_diagnostics_iff {p : Diagnostic} : p ∈ (parse tokens interactive firstId).diagnostics ↔
    ∃ path μ d, (program tokens interactive firstId).Reaches path μ ∧ μ.Does (.tell p) d := by
  rw [diagnostics_eq]
  constructor
  · intro hp
    rcases reaches_of_told hp with hp | h
    · exact absurd hp (by simp [program, Cursor.start])
    · exact h
  · rintro ⟨path, ⟨n, r, c⟩, d, hreaches, htells⟩
    refine hreaches.told program_ends ?_
    have hends := hreaches.ends program_ends
    cases n with
    | zero => cases htells
    | succ n => exact htells.told hends (List.mem_singleton_self p)

end Call

end Lox.Grammar
