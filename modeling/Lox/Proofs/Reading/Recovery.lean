import Lox.Proofs.Grammar.Derivation
import Lox.Proofs.Reading.Places

/-!
  Going on after a failure.

  A declaration that fails does so at the token at the front.  It is given up at the next boundary
  (`ResumesAt`), leaves no statement, and its failure is reported.  Nothing else is left of it, nor of a
  declaration that was read: what is read from there on is what a reading of the remaining tokens alone gives.

  1. A failure is told about the current token (`failsHere_closed`, a law of productions).
  2. The boundary is the first index behind the failure that is the end, follows a semicolon, or has a keyword
     that begins a declaration or statement.  `nextBoundary_spec` says that the scan finds the first such index,
     and none before it.
  3. Productions do not see what has been reported (`Rule.blind`): with other problems before them they do the
     same, and add the same ones.
  4. The number of loops is back where it was, and only the next number goes on.

  So behind any number of top-level declarations the rest of the program is the program of the remaining tokens
  (`parse_of_topLevel`), which `recovery_is_local` states together with the boundary.
-/

namespace Lox.Grammar

variable {α β : Type} {ρ : Reading}

/-! ## Where a production fails -/

/-- The production fails with a problem at the token at the front. -/
def FailsHere (x : Production α) : Prop :=
  ∀ c p d, x c = .failed p d → ∃ fault, p = .syntactic d.current fault

/-- Failures are made at the token at the front, and passed on. -/
theorem failsHere_closed : Closed @FailsHere where
  pure _ _ _ _ h := nomatch h
  bind := by
    intro α β x f hx hf c p d h
    obtain hxc | ⟨a, e, -, hfe⟩ := Action.bind_eq_failed_iff.mp h
    · exact hx c p d hxc
    · exact hf a e p d hfe
  acceptWhere := by
    intro fits c p d h
    rw [acceptWhere] at h
    repeat' split at h
    all_goals cases h
  read _ _ _ _ h := nomatch h
  report _ _ _ _ _ h := nomatch h
  failHere := by
    rintro α fault c p d ⟨⟩
    exact ⟨fault, rfl⟩
  freshRef _ _ _ _ h := nomatch h
  withLoops := by
    intro α depth x hx c p d h
    rw [withLoops_run] at h
    cases hxc : x { c with loopDepth := depth c.loopDepth } with
    | failed q e =>
      rw [hxc] at h
      cases h
      exact hx _ _ e hxc
    | done a e => rw [hxc] at h; cases h
    | exhausted => rw [hxc] at h; cases h
  outOfFuel _ _ _ h := nomatch h
  recover := by
    intro α x hx c p d h
    rw [recover_run] at h
    cases hxc : x c <;> rw [hxc] at h <;> cases h

/-! ## Where reading starts again

  The boundary is described by what stands there, and `giveUp_at` shows that skipping ends just there. -/

/-- Reading can start again before the token with the index: it is an end or a keyword that starts a
    declaration or a statement, or it stands behind a semicolon. -/
def Boundary (ts : List Token) (j : Nat) : Prop :=
  (∃ t ∈ ts[j]?, t.isEof = true ∨
    ∃ k ∈ [Keyword.classKw, .funcKw, .varKw, .forKw, .whileKw, .ifKw, .returnKw], t.IsKeyword k) ∨
  ∃ i, j = i + 1 ∧ ∃ t ∈ ts[i]?, t.IsMark .semicolon

/-- Behind a failure at the first index reading goes on at the second one, the next boundary. -/
def ResumesAt (ts : List Token) (i j : Nat) : Prop :=
  if i = firstEnd ts then j = i else i < j ∧ Boundary ts j ∧ ∀ k, i < k → k < j → ¬ Boundary ts k

/-- The keywords that begin a declaration or a statement. -/
theorem startsAnew_iff {t : Token} : startsAnew t.kind = true ↔
    ∃ k ∈ [Keyword.classKw, .funcKw, .varKw, .forKw, .whileKw, .ifKw, .returnKw], t.IsKeyword k := by
  unfold Token.IsKeyword
  cases t.kind with
  | keyword k => cases k <;> simp [startsAnew]
  | _ => simp [startsAnew]

/-- Behind a token that is read, the boundary is the first one. -/
theorem nextBoundary_spec {ts : List Token} (hend : firstEnd ts < ts.length) {last : Token}
    {ahead : List Token} {i : Nat} (hi : i < firstEnd ts) (hlast : ts[i]? = some last)
    (hahead : ahead = (ts.take (firstEnd ts)).drop (i + 1)) :
    ∃ j, nextBoundary last ahead = (ts.take (firstEnd ts)).drop j ∧ j ≤ firstEnd ts ∧ i < j ∧
      Boundary ts j ∧ ∀ k, i < k → k < j → ¬ Boundary ts k := by
  have hend_mem : Boundary ts (firstEnd ts) :=
    .inl ⟨ts[firstEnd ts], List.getElem?_eq_getElem hend, .inl (List.findIdx_getElem (w := hend))⟩
  induction ahead generalizing i last with
  | nil =>
    have hlength := congrArg List.length hahead
    rw [List.length_drop, List.length_take, List.length_nil] at hlength
    refine ⟨firstEnd ts, ?_, Nat.le_refl _, hi, hend_mem, fun k hk hk' => by omega⟩
    rw [List.drop_eq_nil_of_le (by rw [List.length_take]; omega)]
    rfl
  | cons t rest ih =>
    have hlength := congrArg List.length hahead
    rw [List.length_drop, List.length_take, List.length_cons] at hlength
    have hnext : i + 1 < firstEnd ts := by omega
    have hcons : t :: rest = ts[i + 1] :: (ts.take (firstEnd ts)).drop (i + 1 + 1) := by
      rw [hahead, List.drop_eq_getElem_cons (by rw [List.length_take]; omega), List.getElem_take]
    obtain ⟨rfl, hrest⟩ := List.cons_eq_cons.mp hcons
    have ht : ts[i + 1]? = some ts[i + 1] := List.getElem?_eq_getElem (by omega)
    rw [nextBoundary]
    split
    · rename_i hstop
      refine ⟨i + 1, hahead, by omega, by omega, ?_, fun k hk hk' => by omega⟩
      -- The scan stops behind a semicolon, or at a keyword.
      rcases Bool.or_eq_true_iff.mp hstop with h | h
      · have hsemi : last.kind = .mark .semicolon := of_decide_eq_true h
        exact .inr ⟨i, rfl, last, hlast, hsemi⟩
      · exact .inl ⟨_, ht, .inr (startsAnew_iff.mp h)⟩
    · rename_i hstop
      obtain ⟨j, hj, hle, hlt, hboundary, hleast⟩ := ih hnext ht hrest
      refine ⟨j, hj, hle, by omega, hboundary, fun k hk hkj => ?_⟩
      obtain rfl | hlt' := Nat.eq_or_lt_of_le (Nat.succ_le_of_lt hk)
      · rintro (⟨u, hu, heof | hanew⟩ | ⟨m, hm, u, hu, hsemi⟩)
        · obtain rfl := Option.some.inj (ht.symm.trans hu)
          exact Bool.eq_false_iff.mp (List.not_of_lt_findIdx hnext) heof
        · obtain rfl := Option.some.inj (ht.symm.trans hu)
          exact hstop (by rw [startsAnew_iff.mpr hanew, Bool.or_true])
        · obtain rfl : m = i := by omega
          obtain rfl := Option.some.inj (hlast.symm.trans hu)
          exact hstop (by rw [show last.kind = .mark .semicolon from hsemi]; rfl)
      · exact hleast k hlt' hkj

/-- What failed is given up up to where reading can start again. -/
theorem giveUp_at {ts : List Token} {i : Nat} {c : Cursor} (h : c.At ts i) (p : Diagnostic) :
    ∃ j, (c.giveUp p).At ts j ∧ ResumesAt ts i j := by
  have hend : firstEnd ts < ts.length := (List.getElem?_eq_some_iff.mp h.finish).1
  have hlength := h.length
  unfold Cursor.giveUp ResumesAt
  cases hc : c.ahead with
  | nil =>
    rw [hc, List.length_nil] at hlength
    have hi : i = firstEnd ts := Nat.le_antisymm h.le (by omega)
    exact ⟨i, ⟨h.le, h.ahead, h.finish⟩, by rw [if_pos hi]⟩
  | cons t rest =>
    rw [hc, List.length_cons] at hlength
    have hcurrent : ts[i]? = some t := h.current.trans (by rw [Cursor.current, hc]; rfl)
    have hrest : rest = (ts.take (firstEnd ts)).drop (i + 1) := by
      rw [← List.drop_drop, ← h.ahead, hc]
      rfl
    obtain ⟨j, hj, hle, hnext⟩ := nextBoundary_spec hend (by omega) hcurrent hrest
    exact ⟨j, ⟨hle, hj, h.finish⟩, by rwa [if_neg (by omega)]⟩

/-! ## What has been reported is not seen

  No production looks at the reports, so earlier ones make no difference but to stand before the later ones. -/

/-- The cursor, where something had been reported before. -/
def Cursor.preceded (ps : Array Diagnostic) (c : Cursor) : Cursor :=
  { c with problems := ps ++ c.problems }

/-- The ending, where something had been reported before. -/
def precede (ps : Array Diagnostic) : Ending Cursor Diagnostic α → Ending Cursor Diagnostic α
  | .done a c => .done a (c.preceded ps)
  | .failed p c => .failed p (c.preceded ps)
  | .exhausted => .exhausted

/-- The production does not see what has been reported. -/
def Blind (x : Production α) : Prop := ∀ ps c, x (c.preceded ps) = precede ps (x c)

/-- A report comes behind those that were there before. -/
theorem Cursor.preceded_report (ps : Array Diagnostic) (c : Cursor) (p : Diagnostic) :
    (c.preceded ps).report p = (c.report p).preceded ps := by
  simp [preceded, report]

/-- A declaration is given up in the same way, whatever was reported before. -/
theorem Cursor.preceded_giveUp (ps : Array Diagnostic) (c : Cursor) (p : Diagnostic) :
    (c.preceded ps).giveUp p = (c.giveUp p).preceded ps := by
  obtain ⟨ahead, _, _, _, _, _⟩ := c
  cases ahead <;> simp [giveUp, preceded, report]

/-- By induction on the recipe: a look does not see reports, and the rules that it calls are blind. -/
theorem Recipe.run_blind (hρ : ∀ r, Blind (ρ r)) (x : Recipe α) : Blind (x.run ρ) := by
  induction x with
  | pure a => exact fun _ _ => rfl
  -- Both parts are blind, and the second one begins where the first has ended in either case.
  | bind x f ihx ihf =>
    intro ps c
    show (x.run ρ >>= fun a => (f a).run ρ) _ = precede ps ((x.run ρ >>= fun a => (f a).run ρ) c)
    have hx := ihx ps c
    cases hxc : x.run ρ c with
    | done a d =>
      rw [hxc] at hx
      rw [Action.bind_of_done hx, Action.bind_of_done hxc]
      exact ihf a ps d
    | failed p d =>
      rw [hxc] at hx
      rw [Action.bind_of_failed hx, Action.bind_of_failed hxc]
      rfl
    | exhausted =>
      rw [hxc] at hx
      rw [Action.bind_of_exhausted hx, Action.bind_of_exhausted hxc]
      rfl
  | acceptWhere fits =>
    rintro ps ⟨ahead, _, _, _, _, _⟩
    cases ahead with
    | nil => rfl
    | cons t rest =>
      simp only [run, Grammar.acceptWhere, Cursor.preceded]
      cases fits t.kind <;> rfl
  | look view blind =>
    exact fun ps c => congrArg (Ending.done · (c.preceded ps)) (blind c (ps ++ c.problems))
  | report token fault =>
    exact fun ps c => congrArg (Ending.done ()) (c.preceded_report ps _)
  | fail fault => exact fun _ _ => rfl
  | number name => exact fun _ _ => rfl
  | withLoops depth x ih =>
    intro ps c
    have hx := ih ps { c with loopDepth := depth c.loopDepth }
    simp only [run, withLoops_run]
    rw [show x.run ρ { c.preceded ps with loopDepth := depth (c.preceded ps).loopDepth } = _ from hx]
    cases x.run ρ { c with loopDepth := depth c.loopDepth } <;> rfl
  | recover x ih =>
    intro ps c
    simp only [run, recover_run, ih ps c]
    cases x.run ρ c with
    | failed p d => exact congrArg (Ending.done none) (d.preceded_giveUp ps p)
    | _ => rfl
  | rule r => exact hρ r

/-- **Reading does not see what has been reported.** -/
theorem Rule.blind (r : Rule) (n : Nat) : Blind (r.read n) := by
  induction n generalizing r with
  | zero =>
    rw [r.read_zero]
    exact fun _ _ => rfl
  | succ n ih =>
    rw [r.read_succ]
    exact Recipe.run_blind ih _

/-- The problems of a cursor are those that it has before it. -/
theorem Cursor.preceded_self (c : Cursor) :
    Cursor.preceded c.problems { c with problems := #[] } = c := by
  simp [preceded]

/-- Reading only adds to what has been reported. -/
theorem Blind.problems {x : Production α} (h : Blind x) {c d : Cursor} (hd : (x c).state? = some d) :
    ∃ more, d.problems = c.problems ++ more := by
  -- The same reading without the problems before it.
  have hx := h c.problems { c with problems := #[] }
  rw [c.preceded_self] at hx
  rw [hx] at hd
  cases hxc : x { c with problems := #[] } with
  | done a e =>
    rw [hxc] at hd
    cases hd
    exact ⟨e.problems, rfl⟩
  | failed p e =>
    rw [hxc] at hd
    cases hd
    exact ⟨e.problems, rfl⟩
  | exhausted =>
    rw [hxc] at hd
    cases hd

/-! ## Declarations one after the other -/

/-- At the top level, reading has come from the first cursor to the second one, declaration by
    declaration, and made the statements on the way. -/
inductive TopLevel (start : Cursor) : List Stmt → Cursor → Prop where
  | start : TopLevel start [] start
  | next {n ss c first d} : TopLevel start ss c → c.atEnd = false → declaration n c = .done first d →
    TopLevel start (ss ++ first.toList) d

namespace TopLevel

variable {start c : Cursor} {ss : List Stmt}

/-- Behind top-level declarations the cursor follows the start. -/
theorem follows (h : TopLevel start ss c) : Follows start c := by
  induction h with
  | start => exact .refl _
  | next _ _ hfirst ih => exact ih.trans ((tame _).declaration _ _ (by rw [hfirst]; rfl))

/-- What is read from there on is put behind what was read before. -/
theorem declarations_of (h : TopLevel start ss c) {n : Nat} {rest : List Stmt} {e : Cursor}
    (hrest : declarations n false c = .done rest e) :
    ∃ m, declarations m false start = .done (ss ++ rest) e := by
  induction h generalizing n rest with
  | start => exact ⟨n, hrest⟩
  | @next k ss c first d _ hne hfirst ih =>
    -- With fuel for both the declaration and those behind it.
    have hread : declaration (max n k) c = .done first d :=
      Rule.done_of_le (r := .declaration) hfirst (Nat.le_max_right n k)
    have hrest' : declarations (max n k) false d = .done rest e :=
      Rule.done_of_le (r := .declarations false) hrest (Nat.le_max_left n k)
    have hboth : declarations (max n k + 1) false c = .done (first.toList ++ rest) e := by
      rw [declarations_run, Bool.false_and, Bool.or_false, hne, if_neg Bool.false_ne_true,
        Action.bind_of_done hread, Action.bind_of_done hrest']
      rfl
    obtain ⟨m, hm⟩ := ih hboth
    exact ⟨m, by rw [hm, List.append_assoc]⟩

end TopLevel

/-! ## The rest of a program -/

/-- A reading of what is left of the tokens starts where the cursor stands. -/
theorem start_drop {tokens : List Token} {j : Nat} {c : Cursor} (h : c.At (closed tokens) j)
    (hloops : c.loopDepth = 0) :
    Cursor.start ((closed tokens).drop j) c.interactive c.nextId = { c with problems := #[] } := by
  obtain ⟨before, e, behind, hts, hlen, hbefore, he⟩ := closed_split tokens
  have hle := h.le
  have hahead := h.ahead
  have hfinish := h.finish
  rw [← hlen] at hle hahead hfinish
  rw [hts, List.take_left] at hahead
  rw [hts, List.getElem?_append_right (Nat.le_refl _), Nat.sub_self] at hfinish
  obtain rfl : e = c.finish := Option.some.inj hfinish
  rw [hts, List.drop_append_of_le_length hle,
    start_before_end (fun t ht => hbefore t (List.mem_of_mem_drop ht)) he, ← hahead, ← hloops]

/-- Where reading comes to at the top level, it goes on as if it started there. -/
theorem parse_of_topLevel {tokens : List Token} {interactive : Bool} {firstId j : Nat} {ss : List Stmt}
    {c : Cursor} (h : TopLevel (Cursor.start tokens interactive firstId) ss c)
    (hc : c.At (closed tokens) j) :
    parse tokens interactive firstId =
      let rest := parse ((closed tokens).drop j) interactive c.nextId
      ⟨ss ++ rest.program, c.problems.toList ++ rest.diagnostics, rest.nextId⟩ := by
  have hfollows := h.follows
  have hstart : Cursor.start ((closed tokens).drop j) interactive c.nextId = { c with problems := #[] } := by
    rw [← start_drop hc hfollows.loopDepth, hfollows.interactive]
    rfl
  -- The rest is read alone, and so it is behind what has been reported.
  obtain ⟨n, rest, e, halone⟩ := declarations_done false { c with problems := #[] }
  have hbehind : declarations n false c = .done rest (e.preceded c.problems) := by
    have hblind := (Rule.declarations false).blind n c.problems { c with problems := #[] }
    rw [c.preceded_self, show (Rule.declarations false).read n _ = _ from halone] at hblind
    exact hblind
  obtain ⟨m, hwhole⟩ := h.declarations_of hbehind
  rw [← hstart] at halone
  rw [parse_of_done hwhole, parse_of_done halone, Cursor.preceded, Array.toList_append]

/-! ## Recovery -/

/-- A failed declaration fails at the token at the front, which is reported; it leaves no statement, and
    reading goes on where it can start again. -/
theorem declaration_of_failed {n i : Nat} {ts : List Token} {c e : Cursor} {problem : Diagnostic}
    (hfailed : phrase n c = .failed problem e) (he : e.At ts i) :
    ∃ j d, declaration (n + 1) c = .done none d ∧ d.At ts j ∧ ResumesAt ts i j ∧
      (∃ fault, problem = .syntactic e.current fault) ∧
      (∃ more, d.problems = (c.problems ++ more).push problem) ∧
      d.nextId = e.nextId ∧ d.loopDepth = c.loopDepth := by
  -- The declaration is given up from the cursor of the failure.
  obtain ⟨j, hj, hresumes⟩ := giveUp_at he problem
  obtain ⟨more, hmore⟩ := (Rule.phrase.blind n).problems (c := c) (d := e)
    (by rw [show Rule.phrase.read n c = _ from hfailed]; rfl)
  have hloops := ((tame n).phrase c e (by rw [hfailed]; rfl)).loopDepth
  refine ⟨j, e.giveUp problem, ?_, hj, hresumes, ?_, ⟨more, ?_⟩, ?_, ?_⟩
  · rw [declaration_run, hfailed]
  · exact failsHere_closed.ofRule .phrase n c problem e hfailed
  · rw [Cursor.giveUp_problems, hmore]
  · exact e.giveUp_nextId problem
  · exact (e.giveUp_loopDepth problem).trans hloops

/-- **Recovery is local and exact.**  Wherever a declaration fails, it does so at the token at the
    front, which is reported behind what was reported before; it leaves no statement, and reading goes
    on at the next boundary, or at the end where it failed there.  At the top level, behind whatever was
    read or failed, the statements and diagnostics from there on are exactly those of a reading of the
    remaining tokens alone, which starts with the next number; and it comes to the next declaration,
    unless it is at the end. -/
theorem recovery_is_local (tokens : List Token) (interactive : Bool) (firstId : Nat) :
    let ts := closed tokens
    (∀ n b c problem e, c.At ts b → phrase n c = .failed problem e →
      ∃ i j d, b ≤ i ∧ e.At ts i ∧ ts[i]? = some e.current ∧
        (∃ fault, problem = .syntactic e.current fault) ∧ ResumesAt ts i j ∧ d.At ts j ∧
        declaration (n + 1) c = .done none d ∧
        (∃ more, d.problems = (c.problems ++ more).push problem) ∧
        d.nextId = e.nextId ∧ d.loopDepth = c.loopDepth ∧
        ∀ inBlock, ¬ (c.atEnd || (inBlock && c.sees (.mark .rightBrace))) = true →
          declarations (n + 2) inBlock c = declarations (n + 1) inBlock d) ∧
    ∀ ss c, TopLevel (Cursor.start tokens interactive firstId) ss c → ∃ j, c.At ts j ∧
      (j ≠ firstEnd ts → ∃ n first d, declaration n c = .done first d) ∧
      let rest := parse (ts.drop j) interactive c.nextId
      parse tokens interactive firstId =
        ⟨ss ++ rest.program, c.problems.toList ++ rest.diagnostics, rest.nextId⟩ := by
  intro ts
  constructor
  · intro n b c problem e hc hfailed
    obtain ⟨i, hbi, hi⟩ := hc.beyond (.of_follows ((tame n).phrase c e (by rw [hfailed]; rfl)))
    obtain ⟨j, d, hdone, hj, hresumes, hfault, hproblems, hnext, hloops⟩ :=
      declaration_of_failed hfailed hi
    refine ⟨i, j, d, hbi, hi, hi.current, hfault, hresumes, hj, hdone, hproblems, hnext, hloops, ?_⟩
    intro inBlock hstop
    rw [declarations_run, if_neg hstop, Action.bind_of_done hdone]
    exact congrFun (bind_pure (declarations (n + 1) inBlock)) d
  · intro ss c h
    obtain ⟨j, -, hj⟩ := (start_at tokens interactive firstId).beyond (.of_follows h.follows)
    refine ⟨j, hj, fun hne => declaration_done ?_, parse_of_topLevel h hj⟩
    exact Bool.eq_false_iff.mpr fun hend => hne (hj.atEnd_iff.mp hend)

/-- The first declaration fails at its second token, the second one is read behind the semicolon. -/
theorem recovery_behind_semicolon :
    let one : Token := ⟨.number 1, "1", 1⟩
    let name : Token := ⟨.identifier, "ok", 2⟩
    let equals : Token := ⟨.mark .equal, "=", 1⟩
    let tokens : List Token := [⟨.keyword .varKw, "var", 1⟩, equals, one, ⟨.mark .semicolon, ";", 1⟩,
      ⟨.keyword .varKw, "var", 2⟩, name, ⟨.mark .semicolon, ";", 2⟩]
    let start := Cursor.start tokens false 0
    let problem : Diagnostic := .syntactic equals (.noName .ofVariable)
    phrase 9 start = .failed problem { start with ahead := tokens.drop 1 } ∧
      ResumesAt (closed tokens) 1 4 ∧
      parse tokens false 0 =
        ⟨(parse ((closed tokens).drop 4) false 0).program,
          problem :: (parse ((closed tokens).drop 4) false 0).diagnostics,
          (parse ((closed tokens).drop 4) false 0).nextId⟩ := by
  intro one name equals tokens start problem
  have hfailed : phrase 9 start = .failed problem { start with ahead := tokens.drop 1 } := rfl
  obtain ⟨hgiven, hrest⟩ := recovery_is_local tokens false 0
  obtain ⟨i, j, d, -, hi, -, -, hresumes, hj, hdone, -⟩ :=
    hgiven 9 0 start _ _ (start_at tokens false 0) hfailed
  have hend : firstEnd (closed tokens) = 7 := rfl
  have hd : d = { start with ahead := tokens.drop 4, problems := #[problem] } := by
    cases hdone
    rfl
  -- How many tokens are left tells both positions.
  have hi1 : 6 = 7 - i := hi.length
  have hj4 : 3 = 7 - j := by rw [← hend, ← hj.length, hd]; rfl
  obtain rfl : i = 1 := by omega
  obtain rfl : j = 4 := by omega
  obtain ⟨k, hk, -, hparse⟩ := hrest [] d (.next .start rfl hdone)
  obtain rfl := hk.unique hj
  refine ⟨hfailed, hresumes, ?_⟩
  rw [hparse, hd]
  rfl

end Lox.Grammar
