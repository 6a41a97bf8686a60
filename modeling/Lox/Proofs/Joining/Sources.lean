import Lox.Proofs.Joining.Reading
import Lox.Proofs.Joining.Running
import Lox.Proofs.Joining.Scanning

/-!
  Two sources in one submission.

  Two sources that could be submitted one after the other may as well be submitted as one, with a newline
  between them (`batch_submissions_join`).  Each stage joins by itself:

  1. characters are cut into the same pieces (`itemsAt_join`), so that the tokens of the joined source are those
     of the first and, on later lines, those of the second;
  2. these make the programs of both, one behind the other (`read_join`, from `parse_join`), with numbers of
     occurrences that go on;
  3. names are matched as they are in each, because no scope is open between them (`resolve_join`);
  4. the programs run one after the other (`Turn.Joins.ends`).

  Only the lines of the second source are counted on.  As an error may also stand in a function of a submission
  long before, whose lines are what they were, the joined source is compared with the second source behind so
  many newlines (`Turn.outcome_behindNewlines`), and that one with the second source itself, up to lines.

  The theorem asks for nothing but that the first submission runs to its end and that the second is accepted.
-/

namespace Lox

open Scope

/-- Tokens may stand so many lines later. -/
def Likeness.later (k : Nat) : Likeness where
  number i i' := i' = i
  token t t' := t' = t ∨ t' = t.raise k
  single hi hj := by rw [hi, hj]
  kind h := by rcases h with rfl | rfl <;> rfl
  lexeme h := by rcases h with rfl | rfl <;> rfl
  named h := by
    rcases h with rfl | rfl
    · exact .inl rfl
    · exact .inr rfl

/-- Trees that are the same are the same on later lines. -/
theorem Likeness.below_le_later (bound k : Nat) : (below bound).Le (later k) := ⟨And.right, .inl⟩

/-! ## Newlines in front of a source -/

/-- The source with so many newlines in front of it. -/
def behindNewlines (k : Nat) (source : String) : String :=
  String.ofList (List.replicate k '\n') ++ source

/-- Newlines before a source only raise its lines. -/
theorem items_behindNewlines (k : Nat) (source : String) :
    items (behindNewlines k source) = itemsAt (1 + k) source.toList := by
  have hskip : ∀ line, itemsAt line (List.replicate k '\n' ++ source.toList) =
      itemsAt (line + k) source.toList := by
    induction k with
    | zero => exact fun line => rfl
    | succ k ih =>
      intro line
      have hone : ['\n'].count '\n' = 1 := rfl
      rw [List.replicate_succ, List.cons_append, itemsAt_blank rfl, ih, hone, Nat.add_assoc,
        Nat.add_comm 1 k]
  rw [behindNewlines, items, String.toList_append, String.toList_ofList]
  exact hskip 1

/-! ## Tokens of a source

  A source without faults is its tokens and the end; what follows on it has the same tokens some lines further
  down. -/

/-- The tokens of one list of items and then of another. -/
theorem tokensOf_append (found found' : List Item) :
    tokensOf (found ++ found') = tokensOf found ++ tokensOf found' :=
  List.filterMap_append

theorem tokensOf_tokens (ts : List Token) : tokensOf (ts.map .token) = ts := by
  induction ts with
  | nil => rfl
  | cons t ts ih => exact congrArg _ ih

/-- The faults of one list of items and then of another. -/
theorem faultsOf_append (found found' : List Item) :
    faultsOf (found ++ found') = faultsOf found ++ faultsOf found' :=
  List.filterMap_append

theorem faultsOf_tokens (ts : List Token) : faultsOf (ts.map .token) = [] := by
  induction ts with
  | nil => rfl
  | cons t ts ih => exact ih

/-- Nothing is reported about the characters of a text without faults. -/
theorem lexicalDiagnostics_nil {found : List Item} : lexicalDiagnostics found = [] ↔ faultsOf found = [] :=
  List.map_eq_nil_iff

/-- The end of a program is the first token that is an end. -/
theorem start_finish {ts : List Token} (ht : ∀ t ∈ ts, t.isEof = false) {finish : Token}
    (hf : finish.isEof = true) (interactive : Bool) (firstId : Nat) :
    (Grammar.Cursor.start (ts ++ [finish]) interactive firstId).finish = finish := by
  have hnone : ts.find? (·.isEof) = none := List.find?_eq_none.mpr fun t hmem => by simp [ht t hmem]
  have hfind : (ts ++ [finish]).find? (·.isEof) = some finish := by
    rw [List.find?_append, hnone]
    simp [hf]
  rw [Grammar.Cursor.start, hfind]
  rfl

/-- Of a source without faults of characters the tokens alone are read. -/
theorem read_faultless {s : Session} {source : String} (h : faultsOf (items source) = []) :
    s.read source = Grammar.parse (tokensOf (items source)) s.interactive s.nextId := by
  rw [Session.read, readProgram, lexicalDiagnostics_nil.mpr h]
  rfl

/-- The tokens of a text without faults, and its end. -/
theorem tokensOf_itemsAt {line : Nat} {text : List Char} {ts : List Token}
    (h : itemsAt line text = ts.map .token ++ [.token (.finish (line + text.count '\n'))]) :
    tokensOf (itemsAt line text) = ts ++ [.finish (line + text.count '\n')] := by
  rw [h, tokensOf_append, tokensOf_tokens]
  rfl

/-- Behind newlines a source has the same tokens and faults, on later lines. -/
theorem items_later (k : Nat) (source : String) :
    items (behindNewlines k source) = (items source).map (Item.raise k) := by
  rw [items_behindNewlines, itemsAt_raise]
  rfl

/-- Without faults of characters a source is read in the same way on later lines. -/
theorem read_later {s : Session} {source : String} (h : faultsOf (items source) = []) (k : Nat) :
    Grammar.ParsedCopy (.later k) 0 (s.read source) (s.read (behindNewlines k source)) := by
  obtain ⟨ts, hts, hitems, -⟩ := itemsAt_join h
  have hfaults : faultsOf (items (behindNewlines k source)) = [] := by
    rw [items_later, faultsOf_raise, h]
    rfl
  have htokens : tokensOf (items source) = ts ++ [.finish (1 + source.toList.count '\n')] :=
    tokensOf_itemsAt hitems
  have htokens' : tokensOf (items (behindNewlines k source)) =
      ts.map (Token.raise k) ++ [(Token.finish (1 + source.toList.count '\n')).raise k] := by
    rw [items_later, tokensOf_raise, htokens, List.map_append]
    rfl
  have hraised : ∀ t ∈ ts.map (Token.raise k), t.isEof = false := by
    intro t hmem
    obtain ⟨u, hu, rfl⟩ := List.mem_map.mp hmem
    exact hts u hu
  -- Token by token the second source is the same, on later lines.
  have hcopies : List.Forall₂ (Likeness.later k).token (tokensOf (items source))
      (tokensOf (items (behindNewlines k source))) := by
    rw [items_later, tokensOf_raise]
    exact List.forall₂_map_right_iff.mpr (List.forall₂_same.mpr fun t _ => .inr rfl)
  have hfinish : (Likeness.later k).token
      (Grammar.Cursor.start (tokensOf (items source)) s.interactive s.nextId).finish
      (Grammar.Cursor.start (tokensOf (items (behindNewlines k source))) s.interactive
        (s.nextId + 0)).finish := by
    rw [htokens, htokens', start_finish hts rfl, start_finish hraised rfl]
    exact .inr rfl
  have hparsed := Grammar.parse_copies hcopies s.interactive hfinish fun i _ => rfl
  rw [Nat.add_zero] at hparsed
  rw [read_faultless h, read_faultless hfaults]
  exact hparsed

/-! ## Two sources

  The tokens of both are read as the one program behind the other, with numbers and lines raised in the second. -/

/-- How many lines end in a source. -/
def newlines (source : String) : Nat := source.toList.count '\n'

/-- The two sources, with a newline between them. -/
def joined (source₁ source₂ : String) : String := source₁ ++ "\n" ++ source₂

/-- **Two sources are read as one.**  The lines of the second are counted on from those of the first. -/
theorem read_join {s s' : Session} {source₁ source₂ : String} (hs : s.interactive = false)
    (hs' : s'.interactive = false) (hnextId : s'.nextId = (s.read source₁).nextId)
    (h : (s.read source₁).diagnostics = [])
    (h' : (s'.read (behindNewlines (newlines source₁ + 1) source₂)).diagnostics = []) :
    s.read (joined source₁ source₂) =
      ⟨(s.read source₁).program ++ (s'.read (behindNewlines (newlines source₁ + 1) source₂)).program, [],
        (s'.read (behindNewlines (newlines source₁ + 1) source₂)).nextId⟩ ∧
    ∀ d ∈ (s.read source₁).program, ∀ e, d ≠ .value e := by
  have hlexical : faultsOf (items source₁) = [] :=
    lexicalDiagnostics_nil.mp (List.append_eq_nil_iff.mp h).1
  have hlexical' : faultsOf (items (behindNewlines (newlines source₁ + 1) source₂)) = [] :=
    lexicalDiagnostics_nil.mp (List.append_eq_nil_iff.mp h').1
  obtain ⟨ts, hts, hitems, hjoin⟩ := itemsAt_join hlexical
  have hsecond : items (behindNewlines (newlines source₁ + 1) source₂) =
      itemsAt (1 + source₁.toList.count '\n' + 1) source₂.toList :=
    items_behindNewlines _ _
  have hfaults : faultsOf (itemsAt (1 + source₁.toList.count '\n' + 1) source₂.toList) = [] := by
    rw [← hsecond]
    exact hlexical'
  obtain ⟨ts', hts', hitems', -⟩ := itemsAt_join hfaults
  -- The items of both, of which the tokens are what the parser reads.
  have htogether : items (joined source₁ source₂) =
      ts.map .token ++ itemsAt (1 + source₁.toList.count '\n' + 1) source₂.toList := by
    have htext : (joined source₁ source₂).toList = source₁.toList ++ '\n' :: source₂.toList := by
      simp [joined]
    rw [items, htext]
    exact hjoin source₂.toList
  have hlexicalJoined : faultsOf (items (joined source₁ source₂)) = [] := by
    rw [htogether, faultsOf_append, faultsOf_tokens, hfaults]
    rfl
  have htokens : tokensOf (items source₁) = ts ++ [.finish (1 + source₁.toList.count '\n')] :=
    tokensOf_itemsAt hitems
  have htokens' := tokensOf_itemsAt hitems'
  rw [read_faultless hlexical, hs, htokens] at h hnextId ⊢
  rw [read_faultless hlexical', hs', hsecond, htokens', hnextId] at h' ⊢
  rw [read_faultless hlexicalJoined, hs, htogether, tokensOf_append, tokensOf_tokens, htokens']
  exact ⟨Grammar.parse_join rfl hts rfl hts' h h',
    Grammar.not_value_of_declarations (Grammar.derives_of_parse rfl hts h)⟩

namespace Turn

/-- A submission that does not come to be rejected was accepted. -/
theorem accepted_of_outcome {t : Turn} {answer : Answered Verdict} (h : t.outcome? = some answer)
    (hanswer : ∀ faults, answer.result ≠ .rejected faults) : t.Accepted := by
  cases ends_of_outcome h with
  | unread _ | unmatched _ _ => exact absurd rfl (hanswer _)
  | done ha _ | failed ha _ => exact ha

/-- What a submission leaves of the host has all that had been printed before. -/
theorem printed {t : Turn} {answer : Answered Verdict} (h : t.outcome? = some answer) :
    ∃ more, answer.session.machine.host.printed = t.session.machine.host.printed ++ more := by
  have hforward := Eval.forward_closed.program t.fuel t.parsed.program none
  cases ends_of_outcome h with
  | unread _ | unmatched _ _ => exact ⟨#[], Array.append_empty.symm⟩
  | done _ hrun | failed _ hrun => exact (hforward _ _ (congrArg Ending.state? hrun)).printed

/-- The submission with so many newlines in front of its source. -/
def behindNewlines (t : Turn) (k : Nat) : Turn :=
  { t with source := Lox.behindNewlines k t.source }

/-- An accepted source has no lexical faults. -/
theorem Accepted.faultless {t : Turn} (h : t.Accepted) : faultsOf (items t.source) = [] :=
  lexicalDiagnostics_nil.mp (List.append_eq_nil_iff.mp h.read).1

/-- Newlines in front of a source make no difference to what is reported about it. -/
theorem Accepted.behindNewlines {t : Turn} (h : t.Accepted) (k : Nat) : (t.behindNewlines k).Accepted :=
  have hcopy : Grammar.ParsedCopy (.later k) 0 t.parsed (t.behindNewlines k).parsed :=
    read_later h.faultless k
  ⟨(forall₂_nil_iff hcopy.diagnostics).mpr h.read,
    (forall₂_nil_iff (resolve_copies hcopy.program).diagnostics).mpr h.matched⟩

/-- Nor do they to how it ends. -/
theorem outcome_behindNewlines {t : Turn} (h : t.Accepted)
    (hstore : t.session.machine.store.Like (.below t.session.nextId) t.session.machine.store)
    {answer : Answered Verdict} (hanswer : t.outcome? = some answer) (k : Nat) :
    ∃ later, (t.behindNewlines k).outcome? = some later ∧ answer.Like (.later k) later := by
  have hmachine : t.session.machine.Like (.later k) t.session.machine :=
    ⟨hstore.mono (Likeness.below_le_later _ _), rfl, rfl, fun i i' hi => hi ▸ rfl⟩
  have hanswers : Option.Rel (Answered.Like (.later k)) t.outcome? (t.behindNewlines k).outcome? :=
    outcome_copies rfl hmachine (read_later h.faultless k)
  rw [hanswer] at hanswers
  generalize (t.behindNewlines k).outcome? = later at hanswers ⊢
  cases hanswers with
  | some hlike => exact ⟨_, rfl, hlike⟩

variable {t first second : Turn} {a₁ a₂ : Answered Verdict}

/-- A submission of two sources joins the programs of both. -/
theorem joins (hbatch : first.session.interactive = false) (ha : first.Accepted)
    (hbatch' : second.session.interactive = false) (ha' : second.Accepted)
    (hnextId : second.session.nextId = first.parsed.nextId) (hsession : t.session = first.session)
    (hfuel : first.fuel ≤ t.fuel) (hsource : t.source = joined first.source second.source) :
    t.Joins first (second.behindNewlines (newlines first.source + 1)).parsed.program ∧
    t.parsed.nextId = (second.behindNewlines (newlines first.source + 1)).parsed.nextId := by
  have hlater := ha'.behindNewlines (newlines first.source + 1)
  obtain ⟨hjoined, hvalueless⟩ := read_join hbatch hbatch' hnextId ha.read hlater.read
  generalize hl : second.behindNewlines (newlines first.source + 1) = later at hlater ⊢
  have htogether : t.parsed = ⟨first.parsed.program ++ later.parsed.program, [], later.parsed.nextId⟩ := by
    rw [parsed, hsession, hsource, ← hl]
    exact hjoined
  obtain ⟨is, hformed, hnumbered⟩ := formed ha.read
  obtain ⟨js, hformed', hnumbered'⟩ := formed hlater.read
  have hbounds := later.numbered.bounds
  have hstart : later.session.nextId = first.parsed.nextId := by rw [← hl, ← hnextId]; rfl
  rw [hstart] at hbounds hnumbered'
  -- The second program has numbers from those of the first on, so that nothing found about one is found about
  -- the other.
  have hcopy : Copy (.above first.parsed.nextId) (.stmts later.parsed.program)
      (.stmts later.parsed.program) :=
    later.reads_itself.program.imp (fun i hi i' hii => ⟨(hbounds i hi).1, hii.2⟩) fun _ _ => id
  obtain ⟨hclean, hrecorded⟩ := resolve_join hformed hnumbered hformed' hnumbered' hcopy ha.matched
    hlater.matched
  have hresolved : t.resolved = resolve (first.parsed.program ++ later.parsed.program) := by
    rw [resolved, htogether]
  refine ⟨⟨hsession, hfuel, ⟨by rw [htogether], by rw [hresolved, hclean]⟩, by rw [htogether],
    hvalueless, fun id hid => ?_, fun id => ?_⟩, by rw [htogether]⟩
  · exact resolve_found hformed' fun hmem => Nat.not_lt.mpr (hnumbered'.bounds id hmem).1 hid
  · rw [hresolved]
    exact hrecorded id

end Turn

/-- What one submission does is what two do one after the other.  `later` is the answer to the second if its
    tokens stand so many lines later. -/
structure Answered.Joins (k : Nat) (before : Session) (first second later together : Answered Verdict) :
    Prop where
  output : ∃ o₁ o₂, first.session.machine.host.printed = before.machine.host.printed ++ o₁ ∧
    second.session.machine.host.printed = first.session.machine.host.printed ++ o₂ ∧
    together.session.machine.host.printed = before.machine.host.printed ++ (o₁ ++ o₂)
  host : together.session.machine.host = second.session.machine.host
  globals : ∀ x, Option.Rel (Option.Rel (Value.Like (.later k)))
    (second.session.machine.store.slot? Env.global.frame x)
    (together.session.machine.store.slot? Env.global.frame x)
  store : second.session.machine.store.Like (.later k) together.session.machine.store
  result : second.result.Like (.later k) together.result
  /-- The lines are those of the later answer, in what is reported and in the texts of functions. -/
  lines : later.Same (.below together.session.nextId) together ∧
    later.session.machine.store.Like (.below together.session.nextId) together.session.machine.store
  session : together.session = { second.session with machine := together.session.machine }

/-- A submission of two sources ends as the second does behind the first. -/
theorem Turn.outcome_joined {t first second : Turn} {a₁ a₂ : Answered Verdict}
    (hbatch : first.session.interactive = false)
    (hstore : first.session.machine.store.Like (.below first.session.nextId) first.session.machine.store)
    (h₁ : first.outcome? = some a₁) {value : Option Value} (hvalue : a₁.result = .finished value)
    (hbehind : second.session = a₁.session) (h₂ : second.outcome? = some a₂)
    (haccepted : ∀ faults, a₂.result ≠ .rejected faults) (hsession : t.session = first.session)
    (hfuel : first.fuel ≤ t.fuel) (hfuel' : second.fuel ≤ t.fuel)
    (hsource : t.source = joined first.source second.source) :
    t.Accepted ∧ ∃ later together,
      (second.behindNewlines (newlines first.source + 1)).outcome? = some later ∧
      t.outcome? = some together ∧
      Answered.Joins (newlines first.source + 1) first.session a₁ a₂ later together := by
  obtain ⟨hinteractive, hnextId, -⟩ := leaves h₁
  rw [← hbehind] at hinteractive hnextId
  have hstore' : second.session.machine.store.Like (.below second.session.nextId)
      second.session.machine.store := by
    rw [hbehind]
    exact store_like h₁ hstore
  have ha₂ := accepted_of_outcome h₂ haccepted
  have hlater := ha₂.behindNewlines (newlines first.source + 1)
  have hbehind' : (second.behindNewlines (newlines first.source + 1)).session = a₁.session := hbehind
  obtain ⟨hjoins, hnumbers⟩ := joins hbatch (finished h₁ hvalue).1 (hinteractive.trans hbatch) ha₂ hnextId
    hsession hfuel hsource
  obtain ⟨later, hlaterRun, -⟩ := outcome_behindNewlines ha₂ hstore' h₂ (newlines first.source + 1)
  have hcopy : Grammar.ParsedCopy (.later (newlines first.source + 1)) 0 second.parsed
      (second.behindNewlines (newlines first.source + 1)).parsed := read_later ha₂.faultless _
  have hle : first.parsed.nextId ≤ (second.behindNewlines (newlines first.source + 1)).parsed.nextId := by
    rw [← hnextId]
    exact (second.behindNewlines _).numbered.le
  -- Behind the first program that of the second has the numbers it has alone, but its tokens stand on
  -- later lines; behind newlines it is the very program that was read.
  obtain ⟨together, htogether, hlike, hsession'⟩ := hjoins.ends hstore h₁ hvalue hbehind ha₂ hfuel'
    hcopy.program (hnumbers.trans hcopy.nextId) (Likeness.below_le_later _ _) (fun _ _ => id) h₂
  obtain ⟨together', htogether', hsame, -⟩ := hjoins.ends hstore h₁ hvalue hbehind' hlater hfuel'
    (reads_itself _).program hnumbers (Likeness.below_le hle) (fun _ _ => And.right) hlaterRun
  cases Option.some.inj (htogether.symm.trans htogether')
  rw [← hnumbers, ← (leaves htogether).2.1] at hsame
  obtain ⟨o₁, hprinted₁⟩ := printed h₁
  obtain ⟨o₂, hprinted₂⟩ := printed h₂
  rw [hbehind] at hprinted₂
  refine ⟨hjoins.accepted, later, together, hlaterRun, htogether, ⟨⟨o₁, o₂, hprinted₁, hprinted₂, ?_⟩,
    hlike.machine.host, fun x => hlike.machine.store.slot? _ x, hlike.machine.store, hlike.result,
    ⟨hsame.same fun _ _ => id, hsame.machine.store⟩, hsession'⟩⟩
  rw [hlike.machine.host, hprinted₂, hprinted₁, Array.append_assoc]

/-- A session that reads no values at first never does. -/
theorem Session.History.interactive {first s : Session} {dealings : List Dealing}
    (h : first.History dealings s) : s.interactive = first.interactive := by
  induction h with
  | start => rfl
  | @deal d dealings s _ hserve ih =>
    obtain ⟨before, request⟩ := d
    cases request with
    | tokenize source | parse source | clearFlags =>
      cases hserve
      exact ih
    | run fuel source =>
      obtain ⟨answer, hanswer, rfl⟩ := Option.map_eq_some_iff.mp hserve
      exact (Turn.leaves (t := ⟨before, fuel, source⟩) hanswer).1.trans ih

/-- **Two sources may be submitted as one.**  Let a source run to its end, in any session that does not
    hand back values, and another then be accepted and end in some way.  Then both with a newline between
    them are accepted as one source, and with as much fuel it ends as the second did: with its error or
    without one, the outputs of both one after the other, the same input left, the clock asked as often,
    and the same globals.  The tokens of the second source are as many lines later as lines end before
    it, so what is reported is what is reported of it behind so many newlines. -/
theorem batch_submissions_join {host : Host} {dealings : List Dealing} {s : Session}
    (h : (Session.start false host).History dealings s) {n₁ n₂ : Nat} {source₁ source₂ : String}
    {first second : Answered Verdict} {value : Option Value} (h₁ : s.run n₁ source₁ = some first)
    (hfirst : first.result = .finished value) (h₂ : first.session.run n₂ source₂ = some second)
    (hsecond : ∀ faults, second.result ≠ .rejected faults) {n : Nat} (hn₁ : n₁ ≤ n) (hn₂ : n₂ ≤ n) :
    Turn.Accepted ⟨s, n, joined source₁ source₂⟩ ∧
    items (behindNewlines (newlines source₁ + 1) source₂) =
      (items source₂).map (Item.raise (newlines source₁ + 1)) ∧
    ∃ later together,
      first.session.run n₂ (behindNewlines (newlines source₁ + 1) source₂) = some later ∧
      s.run n (joined source₁ source₂) = some together ∧
      Answered.Joins (newlines source₁ + 1) s first second later together := by
  have h₁' : Turn.outcome? ⟨s, n₁, source₁⟩ = some first := h₁
  have h₂' : Turn.outcome? ⟨first.session, n₂, source₂⟩ = some second := h₂
  obtain ⟨haccepted, hjoined⟩ := Turn.outcome_joined (t := ⟨s, n, joined source₁ source₂⟩) h.interactive
    h.store_like h₁' hfirst rfl h₂' hsecond rfl hn₁ hn₂ rfl
  exact ⟨haccepted, items_later _ _, hjoined⟩

/-! ## A source that is used by the next -/

/-- A verdict that is shown as a run to the end is one. -/
theorem Verdict.finished_of_outcome {verdict : Verdict} {shown : Option String}
    (h : verdict.outcome = .finished shown) : ∃ value, verdict = .finished value := by
  cases verdict with
  | finished value => exact ⟨value, rfl⟩
  | rejected | aborted => cases h

/-- A verdict that is shown as an error is one. -/
theorem Verdict.aborted_of_outcome {verdict : Verdict} {error : RuntimeError}
    (h : verdict.outcome = .aborted error) : verdict = .aborted error := by
  cases verdict with
  | aborted e =>
    cases h
    rfl
  | rejected | finished => cases h

namespace Shared

/-- Sets a variable. -/
def setting : String := "var a = nil;\n"

/-- Uses the variable, and a name that nothing defines. -/
def usage : String := "print(a);\nb;"

def session : Session := .start false ⟨[], #[], .whole, fun _ => 0, 0⟩

/-- A session to which nothing has been submitted yet. -/
theorem history : (Session.start false ⟨[], #[], .whole, fun _ => 0, 0⟩).History [] session := .start

/-- The first source runs to its end. -/
theorem setting_ends : (session.run 9 setting).map (·.result.outcome) = some (.finished none) := by
  cbv

/-- Behind it the second one ends with an error on its second line. -/
theorem usage_ends : ((session.run 9 setting).bind fun first =>
    (first.session.run 9 usage).map (·.result.outcome)) =
      some (.aborted ⟨⟨.identifier, "b", 2⟩, .undefinedVariable⟩) := by
  cbv

/-- In one submission the error is two lines later. -/
theorem together_ends : (session.run 9 (joined setting usage)).map (·.result.outcome) =
    some (.aborted ⟨⟨.identifier, "b", 4⟩, .undefinedVariable⟩) := by
  cbv

/-- Both submissions, as the theorem asks for them. -/
theorem runs : ∃ first value second error, session.run 9 setting = some first ∧
    first.result = .finished value ∧ first.session.run 9 usage = some second ∧
    second.result = .aborted error := by
  obtain ⟨first, h₁, hfirst⟩ := Option.map_eq_some_iff.mp setting_ends
  have hsecond := usage_ends
  rw [h₁, Option.bind_some] at hsecond
  obtain ⟨second, h₂, herror⟩ := Option.map_eq_some_iff.mp hsecond
  obtain ⟨value, hvalue⟩ := Verdict.finished_of_outcome hfirst
  exact ⟨first, value, second, _, h₁, hvalue, h₂, Verdict.aborted_of_outcome herror⟩

end Shared

open Shared in
/-- The error of the second source is two lines later. -/
theorem batch_submissions_join_shared :
    ∃ first value second error, session.run 9 setting = some first ∧
      first.result = .finished value ∧ first.session.run 9 usage = some second ∧
      second.result = .aborted error ∧
      (session.run 9 (joined setting usage)).map (·.result.outcome) =
        some (.aborted ⟨⟨.identifier, "b", 4⟩, .undefinedVariable⟩) ∧
      Turn.Accepted ⟨session, 9, joined setting usage⟩ ∧
      items (behindNewlines (newlines setting + 1) usage) =
        (items usage).map (Item.raise (newlines setting + 1)) ∧
      ∃ later together,
        first.session.run 9 (behindNewlines (newlines setting + 1) usage) = some later ∧
        session.run 9 (joined setting usage) = some together ∧
        Answered.Joins (newlines setting + 1) session first second later together := by
  obtain ⟨first, value, second, error, h₁, hvalue, h₂, herror⟩ := runs
  have haccepted : ∀ faults, second.result ≠ .rejected faults := fun faults hfaults => by
    rw [herror] at hfaults
    cases hfaults
  exact ⟨first, value, second, error, h₁, hvalue, h₂, herror, together_ends,
    batch_submissions_join history h₁ hvalue h₂ haccepted (Nat.le_refl 9) (Nat.le_refl 9)⟩

end Lox
