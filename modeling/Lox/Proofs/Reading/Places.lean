import Lox.Proofs.Reading.Demands

/-!
  Where reading stands.

  A cursor holds what is left of the tokens.  Seen from the whole list it stands before the token with some
  index, and this index never passes the first end (`Cursor.At`).  A list without an end of file is read as if
  it had one behind it (`closed`), so that there is always a token at that index.

  From this follows what a maintainer wants to know of a hand-written parser (`reading_is_total`):

  1. reading comes to the first end, with any fuel that is enough (`reads_to_end`), and every call on the way
     ends;
  2. whatever a call does, it does at a token that is there, so that no index is out of bounds;
  3. every declaration of a program or of a block moves the index on, be it read or given up
     (`declarations_progress`): neither loop can stand still;
  4. problems are told about tokens of the list;
  5. what comes behind the first end makes no difference.
-/

namespace Lox.Grammar

/-! ## The tokens with their end

  A list of tokens may lack its end, or go on behind it.  Reading sees the same in either case as in the list
  that is closed by its first end. -/

/-- The tokens that are read: where the last one is no end, an end is put behind them, on its line. -/
def closed (tokens : List Token) : List Token :=
  match tokens.getLast? with
  | none => [.finish 1]
  | some last => if last.isEof then tokens else tokens ++ [.finish last.line]

/-- The index of the first end. -/
def firstEnd (ts : List Token) : Nat := ts.findIdx (·.isEof)

/-- A list is closed, or is closed by an end of file in the line of its last token. -/
theorem closed_cases (tokens : List Token) :
    (closed tokens = tokens ∧ ∃ t ∈ tokens, t.isEof = true) ∨
    closed tokens = tokens ++ [.finish ((tokens.getLast?.map Token.line).getD 1)] := by
  unfold closed
  cases hlast : tokens.getLast? with
  | none => exact .inr (by rw [List.getLast?_eq_none_iff.mp hlast]; rfl)
  | some last =>
    by_cases heof : last.isEof = true
    · exact .inl ⟨if_pos heof, last, List.mem_of_getLast? hlast, heof⟩
    · exact .inr (if_neg heof)

/-- There is an end. -/
theorem firstEnd_lt (tokens : List Token) : firstEnd (closed tokens) < (closed tokens).length := by
  refine List.findIdx_lt_length.mpr ?_
  rcases closed_cases tokens with ⟨heq, t, ht, heof⟩ | heq
  · exact ⟨t, by rwa [heq], heof⟩
  · exact ⟨_, by rw [heq]; exact List.mem_append_right _ (List.mem_singleton_self _), rfl⟩

/-- The end that is put behind the tokens is the one that reading takes for it. -/
theorem start_closed (tokens : List Token) (interactive : Bool) (firstId : Nat) :
    Cursor.start (closed tokens) interactive firstId = Cursor.start tokens interactive firstId := by
  -- The end that is added is the one that a cursor takes by itself when there is none.
  rcases closed_cases tokens with ⟨heq, -⟩ | heq
  · rw [heq]
  · rw [heq, Cursor.start, Cursor.start]
    congr 1
    · rw [List.takeWhile_append]
      split
      · rename_i hlen
        have hall : tokens.takeWhile (!·.isEof) = tokens := (List.takeWhile_prefix _).eq_of_length hlen
        rw [hall]
        exact List.append_nil tokens
      · rfl
    · rw [List.find?_append]
      cases tokens.find? (·.isEof) with
      | none => rfl
      | some e => rfl

/-- The first end, what stands before it and what stands behind it. -/
theorem closed_split (tokens : List Token) :
    ∃ before e behind, closed tokens = before ++ e :: behind ∧ before.length = firstEnd (closed tokens) ∧
      (∀ t ∈ before, t.isEof = false) ∧ e.isEof = true := by
  have hlt := firstEnd_lt tokens
  refine ⟨(closed tokens).take (firstEnd (closed tokens)), (closed tokens)[firstEnd (closed tokens)],
    (closed tokens).drop (firstEnd (closed tokens) + 1), ?_, ?_, ?_, List.findIdx_getElem (w := hlt)⟩
  · rw [← List.drop_eq_getElem_cons hlt, List.take_append_drop]
  · rw [List.length_take]
    omega
  · intro t ht
    obtain ⟨k, hk, rfl⟩ := List.mem_iff_getElem.mp ht
    rw [List.length_take] at hk
    rw [List.getElem_take]
    exact List.not_of_lt_findIdx (by omega : k < firstEnd (closed tokens))

/-- Reading starts with what stands before an end, whatever stands behind it. -/
theorem start_before_end {before behind : List Token} {e : Token}
    (hbefore : ∀ t ∈ before, t.isEof = false) (he : e.isEof = true) (interactive : Bool) (firstId : Nat) :
    Cursor.start (before ++ e :: behind) interactive firstId =
      ⟨before, e, interactive, 0, firstId, #[]⟩ := by
  rw [Cursor.start]
  congr 1
  · rw [List.takeWhile_append_of_pos (by simpa using hbefore), List.takeWhile_cons_of_neg (by simp [he]),
      List.append_nil]
  · rw [List.find?_append, List.find?_eq_none.mpr (by simpa using hbefore), Option.none_or,
      List.find?_cons_of_pos he, Option.getD_some]

/-- What is parsed depends on where reading starts. -/
theorem parse_congr {tokens tokens' : List Token} {interactive : Bool} {firstId : Nat}
    (h : Cursor.start tokens interactive firstId = Cursor.start tokens' interactive firstId) :
    parse tokens interactive firstId = parse tokens' interactive firstId := by
  rw [parse, parse, h]

/-- What is parsed is what reading comes to, with whatever fuel. -/
theorem parse_of_done {tokens : List Token} {interactive : Bool} {firstId n : Nat} {program : List Stmt}
    {d : Cursor} (h : declarations n false (Cursor.start tokens interactive firstId) = .done program d) :
    parse tokens interactive firstId = ⟨program, d.problems.toList, d.nextId⟩ := by
  have hends : (Call.program tokens interactive firstId).ending ≠ .exhausted := Call.program_ends
  -- The fuel of `parse` is enough, so it comes to the same as any other that is.
  have hsame := Rule.read_of_le hends (Nat.le_max_right n _)
  have hmore := Rule.done_of_le (r := .declarations false) h
    (Nat.le_max_left n (Call.program tokens interactive firstId).fuel)
  have hrun : declarations (enoughFuel (Cursor.start tokens interactive firstId).ahead.length) false
      (Cursor.start tokens interactive firstId) = .done program d := hsame.symm.trans hmore
  simp only [parse, hrun]

/-! ## The index of a cursor

  What is left of the tokens tells at which index the cursor stands. -/

/-- The cursor stands before the token with the index, which is not behind the first end. -/
structure Cursor.At (ts : List Token) (i : Nat) (c : Cursor) : Prop where
  le : i ≤ firstEnd ts
  ahead : c.ahead = (ts.take (firstEnd ts)).drop i
  finish : ts[firstEnd ts]? = some c.finish

namespace Cursor.At

variable {ts : List Token} {i j : Nat} {c d : Cursor}

/-- The index and what is left add up to the index of the end. -/
theorem length (h : c.At ts i) : c.ahead.length = firstEnd ts - i := by
  have hlt : firstEnd ts < ts.length := (List.getElem?_eq_some_iff.mp h.finish).1
  rw [h.ahead, List.length_drop, List.length_take]
  omega

/-- A cursor stands at one place. -/
theorem unique (h : c.At ts i) (h' : c.At ts j) : i = j := by
  have := h.length.symm.trans h'.length
  have := h.le
  have := h'.le
  omega

/-- **The token at the front is in the list.** -/
theorem current (h : c.At ts i) : ts[i]? = some c.current := by
  rw [Cursor.current, h.ahead, List.headD_eq_head?_getD, List.head?_drop, List.getElem?_take]
  split
  · rename_i hi
    have hlt : firstEnd ts < ts.length := (List.getElem?_eq_some_iff.mp h.finish).1
    rw [List.getElem?_eq_getElem (by omega), Option.getD_some]
  · rename_i hi
    rw [Option.getD_none, ← h.finish, Nat.le_antisymm h.le (by omega)]

/-- A cursor has come to the end if its index is that of the end. -/
theorem atEnd_iff (h : c.At ts i) : c.atEnd = true ↔ i = firstEnd ts := by
  rw [Cursor.atEnd, List.isEmpty_iff_length_eq_zero, h.length]
  have := h.le
  omega

/-- Whatever is ahead is in the list, not behind the first end. -/
theorem mem (h : c.At ts i) {t : Token} (ht : t ∈ c.ahead) : ∃ k ≤ firstEnd ts, ts[k]? = some t := by
  rw [h.ahead] at ht
  obtain ⟨k, hk⟩ := List.getElem?_of_mem (List.mem_of_mem_drop ht)
  rw [List.getElem?_take] at hk
  split at hk
  · exact ⟨k, by omega, hk⟩
  · cases hk

/-- Reading on, the index only grows. -/
theorem of_suffix (h : c.At ts i) (hahead : d.ahead <:+ c.ahead) (hfinish : d.finish = c.finish) :
    d.At ts (firstEnd ts - d.ahead.length) ∧ i ≤ firstEnd ts - d.ahead.length := by
  have hlen := hahead.length_le
  have hle := h.le
  rw [h.length] at hlen
  refine ⟨⟨by omega, ?_, hfinish ▸ h.finish⟩, by omega⟩
  calc d.ahead
      _ = c.ahead.drop (c.ahead.length - d.ahead.length) := List.suffix_iff_eq_drop.mp hahead
      _ = (ts.take (firstEnd ts)).drop (i + (firstEnd ts - i - d.ahead.length)) := by
        rw [h.length, h.ahead, List.drop_drop]
      _ = _ := by congr 1; omega

/-- What lies beyond a cursor has an index that is not smaller. -/
theorem beyond (h : c.At ts i) (hcd : Beyond c d) : ∃ j, i ≤ j ∧ d.At ts j :=
  have hahead : d.ahead <:+ c.ahead := hcd.ahead
  have hd := h.of_suffix hahead hcd.finish
  ⟨_, hd.2, hd.1⟩

end Cursor.At

/-- Reading starts at the first token. -/
theorem start_at (tokens : List Token) (interactive : Bool) (firstId : Nat) :
    (Cursor.start tokens interactive firstId).At (closed tokens) 0 := by
  obtain ⟨before, e, behind, hts, hlen, hbefore, he⟩ := closed_split tokens
  have hstart : Cursor.start tokens interactive firstId = ⟨before, e, interactive, 0, firstId, #[]⟩ := by
    rw [← start_closed, hts]
    exact start_before_end hbefore he interactive firstId
  rw [hstart]
  refine ⟨Nat.zero_le _, ?_, ?_⟩
  · rw [← hlen, hts, List.take_left, List.drop_zero]
  · rw [← hlen, hts, List.getElem?_append_right (Nat.le_refl _), Nat.sub_self]
    rfl

/-! ## Declarations one after the other

  Each takes a token at least, also if it fails. -/

/-- A declaration is a phrase, given up where it fails. -/
theorem declaration_run (n : Nat) (c : Cursor) :
    declaration (n + 1) c =
      match phrase n c with
      | .done a d => .done (some a) d
      | .failed p d => .done none (d.giveUp p)
      | .exhausted => .exhausted := by
  rw [declaration, recover_run]
  cases phrase n c <;> rfl

/-- A declaration does not fail. -/
theorem declaration_ne_failed {n : Nat} {c d : Cursor} {p : Diagnostic} :
    declaration n c ≠ .failed p d := by
  cases n with
  | zero => exact nofun
  | succ n =>
    rw [declaration_run]
    cases phrase n c <;> exact nofun

/-- Declarations of a program are read up to its end. -/
theorem declarations_atEnd {n : Nat} {c d : Cursor} {program : List Stmt}
    (h : declarations n false c = .done program d) : d.atEnd = true := by
  -- The list of declarations ends only at the end, or goes on behind a declaration.
  induction n generalizing c program with
  | zero => cases h
  | succ n ih =>
    rw [declarations_run, Bool.false_and, Bool.or_false] at h
    split at h
    · rename_i hend
      cases h
      exact hend
    · obtain ⟨first, e, -, hrest⟩ := Action.bind_eq_done_iff.mp h
      obtain ⟨rest, e', hrest, hd⟩ := Action.bind_eq_done_iff.mp hrest
      cases hd
      exact ih hrest

/-- Declarations do not fail. -/
theorem declarations_ne_failed {n : Nat} {inBlock : Bool} {c d : Cursor} {p : Diagnostic} :
    declarations n inBlock c ≠ .failed p d := by
  -- A declaration recovers from its failures, so that neither it nor the list fails.
  induction n generalizing c with
  | zero => exact nofun
  | succ n ih =>
    rw [declarations_run]
    intro h
    split at h
    · cases h
    · obtain hfirst | ⟨first, e, -, hrest⟩ := Action.bind_eq_failed_iff.mp h
      · exact declaration_ne_failed hfirst
      · obtain hrest | ⟨rest, e', -, hd⟩ := Action.bind_eq_failed_iff.mp hrest
        · exact ih hrest
        · cases hd

/-- From every cursor declarations can be read to their end. -/
theorem declarations_done (inBlock : Bool) (c : Cursor) :
    ∃ n program d, declarations n inBlock c = .done program d := by
  cases hrun : declarations (enoughFuel c.ahead.length) inBlock c with
  | done program d => exact ⟨_, program, d, hrun⟩
  | failed p d => exact absurd hrun declarations_ne_failed
  | exhausted => exact absurd hrun (declarations_ends c inBlock)

/-- From every cursor before the end a declaration can be read. -/
theorem declaration_done {c : Cursor} (hne : c.atEnd = false) :
    ∃ n first d, declaration n c = .done first d := by
  obtain ⟨n, program, d, h⟩ := declarations_done false c
  cases n with
  | zero => cases h
  | succ n =>
    rw [declarations_run, Bool.false_and, Bool.or_false, hne, if_neg Bool.false_ne_true] at h
    obtain ⟨first, e, hfirst, -⟩ := Action.bind_eq_done_iff.mp h
    exact ⟨n, first, e, hfirst⟩

namespace Call

variable {n : Nat} {inBlock : Bool} {c d : Cursor}

/-- Before they stop, declarations take a declaration. -/
theorem makes_declaration (h : ¬ (c.atEnd || (inBlock && c.sees (.mark .rightBrace))) = true) :
    Makes ⟨n + 1, .declarations inBlock, c⟩ ⟨n, .declaration, c⟩ := by
  refine .call (.by_recipe (.inr ⟨_, _, rfl, .inr ⟨_, _, rfl, ?_⟩⟩))
  dsimp only
  rw [if_neg h]
  exact .inl ⟨rfl, rfl⟩

/-- Behind it they go on. -/
theorem makes_declarations (h : ¬ (c.atEnd || (inBlock && c.sees (.mark .rightBrace))) = true)
    {first : Option Stmt} (hfirst : declaration n c = .done first d) :
    Makes ⟨n + 1, .declarations inBlock, c⟩ ⟨n, .declarations inBlock, d⟩ := by
  refine .call (.by_recipe (.inr ⟨_, _, rfl, .inr ⟨_, _, rfl, ?_⟩⟩))
  dsimp only
  rw [if_neg h]
  exact .inr ⟨first, d, hfirst, .inl ⟨rfl, rfl⟩⟩

end Call

/-! ## Reading is total -/

section Total

variable {tokens : List Token} {interactive : Bool} {firstId : Nat}

/-- Every call is made at a token of the list. -/
theorem Call.Reaches.placed {path : List Rule} {μ : Call}
    (h : (program tokens interactive firstId).Reaches path μ) : ∃ i, μ.cursor.At (closed tokens) i :=
  have ⟨i, _, hi⟩ := (start_at tokens interactive firstId).beyond h.beyond
  ⟨i, hi⟩

/-- Reading comes to the first end, and this is what is parsed. -/
theorem reads_to_end (tokens : List Token) (interactive : Bool) (firstId : Nat) :
    let whole := Call.program tokens interactive firstId
    ∃ program d, d.At (closed tokens) (firstEnd (closed tokens)) ∧
      (∀ fuel ≥ whole.fuel, declarations fuel false whole.cursor = .done program d) ∧
      parse tokens interactive firstId = ⟨program, d.problems.toList, d.nextId⟩ := by
  intro whole
  have hends : declarations whole.fuel false whole.cursor ≠ .exhausted := Call.program_ends
  cases hrun : declarations whole.fuel false whole.cursor with
  | done program d =>
    have hfollows := (tame _).declarations false whole.cursor d (by rw [hrun]; rfl)
    obtain ⟨j, -, hd⟩ := (start_at tokens interactive firstId).beyond (.of_follows hfollows)
    have hj : j = firstEnd (closed tokens) := hd.atEnd_iff.mp (declarations_atEnd hrun)
    refine ⟨program, d, hj ▸ hd, fun fuel hfuel => ?_, parse_of_done hrun⟩
    exact Rule.done_of_le (r := .declarations false) (n := whole.fuel) hrun hfuel
  | failed p d => exact absurd hrun declarations_ne_failed
  | exhausted => exact absurd hrun hends

/-- Before they stop, declarations take a declaration, which takes a token, and go on behind it. -/
theorem declarations_progress {path : List Rule} {n : Nat} {inBlock : Bool} {c : Cursor}
    (h : (Call.program tokens interactive firstId).Reaches path ⟨n + 1, .declarations inBlock, c⟩)
    (hstop : ¬ (c.atEnd || (inBlock && c.sees (.mark .rightBrace))) = true) :
    ∃ first d i j, declaration n c = .done first d ∧ c.At (closed tokens) i ∧ d.At (closed tokens) j ∧
      i < j ∧ (Call.program tokens interactive firstId).Reaches (.declarations inBlock :: path)
        ⟨n, .declarations inBlock, d⟩ := by
  have hends : declaration n c ≠ .exhausted :=
    (h.call (Call.makes_declaration hstop)).ends Call.program_ends
  cases hfirst : declaration n c with
  | done first d =>
    have hnext := h.call (Call.makes_declarations hstop hfirst)
    obtain ⟨i, hi⟩ := h.placed
    obtain ⟨j, hj⟩ := hnext.placed
    refine ⟨first, d, i, j, rfl, hi, hj, ?_, hnext⟩
    have hne : c.ahead ≠ [] := by
      intro hc
      simp [Cursor.atEnd, hc] at hstop
    -- There is a token, and the declaration takes at least that one.
    have hlt := declaration_length_lt hfirst hne
    have hci : c.ahead.length = firstEnd (closed tokens) - i := hi.length
    have hdj : d.ahead.length = firstEnd (closed tokens) - j := hj.length
    omega
  | failed p d => exact absurd hfirst declaration_ne_failed
  | exhausted => exact absurd hfirst hends

/-- What is told is about a token of the list. -/
theorem diagnostic_at {p : Diagnostic} (hp : p ∈ (parse tokens interactive firstId).diagnostics) :
    ∃ i ≤ firstEnd (closed tokens), ∃ t fault, (closed tokens)[i]? = some t ∧ p = .syntactic t fault := by
  obtain ⟨path, μ, d, hreaches, htells⟩ := Call.mem_diagnostics_iff.mp hp
  obtain ⟨i, hi⟩ := hreaches.placed
  have hfinish : ∃ k ≤ firstEnd (closed tokens), (closed tokens)[k]? = some μ.cursor.finish :=
    ⟨_, Nat.le_refl _, hi.finish⟩
  obtain ⟨t, fault, rfl, ⟨k, hk, ht⟩, -⟩ := htells.obeys (fun t => hi.mem) hfinish
  exact ⟨k, hk, t, fault, ht, rfl⟩

/-- What stands behind the first end is not seen. -/
theorem parse_hidden (tokens behind : List Token) (interactive : Bool) (firstId : Nat) :
    parse ((closed tokens).take (firstEnd (closed tokens) + 1) ++ behind) interactive firstId =
      parse tokens interactive firstId := by
  obtain ⟨before, e, hidden, hts, hlen, hbefore, he⟩ := closed_split tokens
  have htake : (closed tokens).take (firstEnd (closed tokens) + 1) = before ++ [e] := by
    rw [← hlen, hts]
    exact List.take_length_add_append 1
  apply parse_congr
  rw [htake, List.append_assoc, List.singleton_append, start_before_end hbefore he, ← start_closed, hts,
    start_before_end hbefore he]

end Total

/-- **Reading is total.**  With any fuel that is enough, reading a program comes to the first end, and
    this is what is parsed.  Everything on the way comes to an end, and is done at a token of the list,
    none behind the first end.  Declarations of the program or of a block stop at their end; before it
    each takes at least one token, read or given up, and the next ones are read behind it.  Every
    diagnostic is about a token of the list, and what stands behind the first end changes nothing. -/
theorem reading_is_total (tokens : List Token) (interactive : Bool) (firstId : Nat) :
    let ts := closed tokens
    let whole := Call.program tokens interactive firstId
    (∃ program d, d.At ts (firstEnd ts) ∧
      (∀ fuel ≥ whole.fuel, declarations fuel false whole.cursor = .done program d) ∧
      parse tokens interactive firstId = ⟨program, d.problems.toList, d.nextId⟩) ∧
    (∀ path μ, whole.Reaches path μ → μ.ending ≠ .exhausted) ∧
    (∀ path μ deed d, whole.Reaches path μ → μ.Does deed d →
      ∃ i ≤ firstEnd ts, d.At ts i ∧ ts[i]? = some d.current) ∧
    (∀ path n inBlock c, whole.Reaches path ⟨n + 1, .declarations inBlock, c⟩ →
      if c.atEnd || (inBlock && c.sees (.mark .rightBrace)) then
        declarations (n + 1) inBlock c = .done [] c
      else
        ∃ first d i j, declaration n c = .done first d ∧ c.At ts i ∧ d.At ts j ∧ i < j ∧
          whole.Reaches (.declarations inBlock :: path) ⟨n, .declarations inBlock, d⟩) ∧
    (∀ p ∈ (parse tokens interactive firstId).diagnostics,
      ∃ i ≤ firstEnd ts, ∃ t fault, ts[i]? = some t ∧ p = .syntactic t fault) ∧
    ∀ behind, parse (ts.take (firstEnd ts + 1) ++ behind) interactive firstId =
      parse tokens interactive firstId := by
  intro ts whole
  refine ⟨reads_to_end tokens interactive firstId, fun path μ h => h.ends Call.program_ends, ?places,
    ?progress, fun p => diagnostic_at, fun behind => parse_hidden tokens behind interactive firstId⟩
  -- From where a call begins nothing leads back, and nothing beyond the first end.
  case places =>
    intro path μ deed d hreaches hdoes
    obtain ⟨i, hi⟩ := hreaches.placed
    obtain ⟨j, -, hj⟩ := hi.beyond hdoes.beyond
    exact ⟨j, hj.le, hj, hj.current⟩
  case progress =>
    intro path n inBlock c hreaches
    split
    · rename_i hstop
      rw [declarations_run, if_pos hstop]
    · rename_i hstop
      exact declarations_progress hreaches hstop

/-- The tokens have no end, the first one has a wrong text, and no declaration begins with it: it is
    given up, and reading goes on at the second one. -/
theorem failed_declaration_moves_on :
    let ts : List Token := [⟨.mark .semicolon, "x", 4⟩, ⟨.keyword .varKw, "var", 4⟩]
    let whole := Call.program ts false 0
    closed ts = ts ++ [.finish 4] ∧ firstEnd (closed ts) = 2 ∧
      ∃ first d, declaration 95 whole.cursor = .done first d ∧ d.At (closed ts) 1 ∧
        whole.Reaches [.declarations false, .declarations false] ⟨95, .declarations false, d⟩ := by
  intro ts whole
  refine ⟨rfl, rfl, ?_⟩
  have hstep := (reading_is_total ts false 0).2.2.2.1 _ 95 false whole.cursor .start
  rw [if_neg (by decide)] at hstep
  obtain ⟨first, d, i, j, hfirst, hi, hj, hlt, hreaches⟩ := hstep
  refine ⟨first, d, hfirst, ?_, hreaches⟩
  cases hfirst
  have hlength : 1 = 2 - j := hj.length
  obtain rfl : j = 1 := by omega
  exact hj

end Lox.Grammar
