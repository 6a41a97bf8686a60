import Lox.Proofs.Histories.Errands
import Lox.Proofs.Input.Lines

/-!
  Asking for lines.

  Each call of `input` takes the next line of the input off, whether or not it is text, and no other call
  takes anything.  What it gives is the text of the line, without its end; nothing where the input is over;
  and an error where the line is no text.

  1. **A single call** (`Asked`, `Errand.asks`).  The relation says what may be given for a line, or for none,
     and the call gives that.
  2. **Calls among others** (`Relay.asks`).  In whatever order a program calls functions of its host, the calls
     of `input` among them take the lines one by one.  By induction over the calls: one of `input` shortens
     the list of lines by its first, any other leaves it.
  3. **Calls one after the other** (`asked`).  A number of calls on a machine, for statements that compare two
     inputs.  Behind a broken line others are read as if it had not been there (`asked_erase`), by
     induction on the lines before it.
  4. **Written lines** (`asked_written`).  Lines that have been written are read back, the last one just as it
     is, and then nothing for ever.

  `input_splits_losslessly` puts these together for every session and every call.
-/

namespace Lox

open Machine Text

/-! ## A single call -/

/-- What is asked for has been given: the text of a line, or no text where there is no line any more. -/
inductive Asked (token : Token) : Option (List UInt8) → Except RuntimeError Value → Prop where
  | text {line : List UInt8} {text : String} : LineText line text → Asked token (some line) (.ok (.string text))
  | broken {line : List UInt8} : ¬ Valid line → Asked token (some line) (.error ⟨token, .unreadableInput⟩)
  | nothing : Asked token none (.ok (.string ""))

/-- For a line that is no text there is nothing but the error. -/
theorem Asked.result_broken {token : Token} {line : List UInt8} {line? : Option (List UInt8)}
    {result : Except RuntimeError Value} (h : Asked token line? result) (hline : line? = some line)
    (hbroken : ¬ Valid line) : result = .error ⟨token, .unreadableInput⟩ := by
  subst hline
  cases h with
  | text htext => exact absurd htext.valid hbroken
  | broken => rfl

namespace Errand

variable {e : Errand} {line : List UInt8} {text : String}

/-- Behind a call of `input` a line has been skipped, whether or not the call fails. -/
theorem behind_input (h : e.native = .input) : e.behind = e.machine.host.skipLine := by
  rw [behind, h, nativeAnswer]
  split <;> rfl

/-- Only `input` takes something off the input. -/
theorem input_behind (h : e.native ≠ .input) : e.behind.input = e.machine.host.input := by
  rw [behind]
  cases hnative : e.native with
  | clock => rfl
  | input => exact absurd hnative h
  | print =>
    rw [nativeAnswer]
    split <;> rfl

/-- It leaves all lines but the first. -/
theorem input_behind_input (h : e.native = .input) :
    e.behind.input = (linesOf e.machine.host.input).tail.flatten := by
  rw [behind_input h, Host.skipLine, splitLine_eq]

/-- They are the lines of what it leaves. -/
theorem linesOf_behind (h : e.native = .input) :
    linesOf e.behind.input = (linesOf e.machine.host.input).tail := by
  rw [input_behind_input h]
  exact (lined_linesOf _).tail

/-- What it gives is made of the first line, or of no bytes where there is none. -/
theorem result_input (h : e.native = .input) : e.result =
    match decode (Host.withoutLineEnd ((linesOf e.machine.host.input).headD [])) with
    | .ok text => .ok (.string text)
    | .error _ => .error ⟨e.token, .unreadableInput⟩ := by
  have hline : e.machine.host.line =
      Host.withoutLineEnd ((linesOf e.machine.host.input).headD []) := by
    rw [Host.line, splitLine_eq]
  rw [result, h, nativeAnswer, hline]
  cases decode (Host.withoutLineEnd ((linesOf e.machine.host.input).headD [])) <;> rfl

/-- **A call of `input` gives what the next line is.** -/
theorem asks (h : e.native = .input) : Asked e.token (linesOf e.machine.host.input).head? e.result := by
  have hlined := lined_linesOf e.machine.host.input
  rw [result_input h]
  cases hlines : linesOf e.machine.host.input with
  | nil => exact .nothing
  | cons line lines =>
    rw [hlines] at hlined
    have hline : IsLine line := hlined.isLine List.mem_cons_self
    by_cases hvalid : Valid line
    · obtain ⟨text, htext⟩ := hline.exists_text hvalid
      rw [List.headD_cons, htext.decode_eq]
      exact .text htext
    · obtain ⟨fault, hfault⟩ := hline.decode_broken hvalid
      rw [List.headD_cons, hfault]
      exact .broken hvalid

/-- For a line with a text it gives the text. -/
theorem result_text (h : e.native = .input) {lines : List (List UInt8)}
    (hlines : linesOf e.machine.host.input = line :: lines) (htext : LineText line text) :
    e.result = .ok (.string text) := by
  rw [result_input h, hlines, List.headD_cons, htext.decode_eq]

/-- Where the input is over it gives no text. -/
theorem result_over (h : e.native = .input) (hover : e.machine.host.input = []) :
    e.result = .ok (.string "") := by
  rw [result_input h, hover]
  rfl

end Errand

/-! ## Calls among others -/

/-- The calls of `input`. -/
def asksOf (es : List Errand) : List Errand := es.filter (·.native = .input)

/-- A call of `input` is one of them. -/
theorem asksOf_cons {e : Errand} {es : List Errand} (h : e.native = .input) :
    asksOf (e :: es) = e :: asksOf es :=
  List.filter_cons_of_pos (decide_eq_true h)

/-- Any other call is not. -/
theorem asksOf_cons_of_ne {e : Errand} {es : List Errand} (h : e.native ≠ .input) :
    asksOf (e :: es) = asksOf es :=
  List.filter_cons_of_neg (by rw [decide_eq_true_iff]; exact h)

/-- **The calls of `input` take the lines one by one**, whatever else is called in between. -/
theorem Relay.asks {host host' : Host} {es : List Errand} (h : Relay host es host') :
    host'.input = ((linesOf host.input).drop (asksOf es).length).flatten ∧
    ∀ i e, (asksOf es)[i]? = some e → e.machine.host.input = ((linesOf host.input).drop i).flatten ∧
      e.behind.input = ((linesOf host.input).drop (i + 1)).flatten ∧
      Asked e.token (linesOf host.input)[i]? e.result := by
  induction h with
  | none => exact ⟨(flatten_linesOf _).symm, nofun⟩
  | @errand e es host h ih =>
    by_cases hinput : e.native = .input
    · rw [Errand.linesOf_behind hinput] at ih
      rw [asksOf_cons hinput]
      constructor
      · rw [List.length_cons, ← List.drop_tail]
        exact ih.1
      · intro i e' he'
        cases i with
        | zero =>
          cases he'
          refine ⟨(flatten_linesOf _).symm, ?_, ?_⟩
          · rw [Errand.input_behind_input hinput, ← List.drop_one]
          · rw [← List.head?_eq_getElem?]
            exact Errand.asks hinput
        | succ i =>
          have hnext := ih.2 i e' he'
          rw [List.drop_tail, List.drop_tail, List.getElem?_tail] at hnext
          exact hnext
    · -- Whatever else is called leaves all lines where they are.
      rw [Errand.input_behind hinput] at ih
      rw [asksOf_cons_of_ne hinput]
      exact ih

/-! ## Calls one after the other -/

/-- So many calls of `input`, one after the other, whether or not they fail. -/
def asked (token : Token) : Nat → Machine → List Errand
  | 0, _ => []
  | n + 1, m => ⟨token, .input, [], m⟩ :: asked token n { m with host := m.host.skipLine }

/-- What they give. -/
def askedResults (token : Token) (n : Nat) (m : Machine) : List (Except RuntimeError Value) :=
  (asked token n m).map Errand.result

section Asked

variable {token : Token} {n : Nat} {m m' : Machine}

/-- They are calls each of which begins where the one before has ended. -/
theorem asked_relay : ∃ host, Relay m.host (asked token n m) host := by
  induction n generalizing m with
  | zero => exact ⟨m.host, .none⟩
  | succ n ih =>
    obtain ⟨host, hrelay⟩ := @ih { m with host := m.host.skipLine }
    have hbehind : Errand.behind ⟨token, .input, [], m⟩ = m.host.skipLine := Errand.behind_input rfl
    refine ⟨host, Relay.errand (e := ⟨token, .input, [], m⟩) ?_⟩
    rw [hbehind]
    exact hrelay

/-- They depend on nothing but the input. -/
theorem askedResults_congr (h : m.host.input = m'.host.input) :
    askedResults token n m = askedResults token n m' := by
  induction n generalizing m m' with
  | zero => rfl
  | succ n ih =>
    have hresult : Errand.result ⟨token, .input, [], m⟩ = Errand.result ⟨token, .input, [], m'⟩ := by
      rw [Errand.result_input rfl, Errand.result_input rfl]
      dsimp only
      rw [h]
    have hskip : m.host.skipLine.input = m'.host.skipLine.input := by
      rw [Host.skipLine, Host.skipLine, h]
    exact List.cons_eq_cons.mpr ⟨hresult, @ih { m with host := _ } { m' with host := _ } hskip⟩

/-- A line that is skipped is taken off. -/
theorem input_skipLine {line : List UInt8} {lines : List (List UInt8)}
    (h : linesOf m.host.input = line :: lines) : m.host.skipLine.input = lines.flatten := by
  rw [Host.skipLine, splitLine_eq, h]
  rfl

/-- **After a line has been taken, others are read as if it had not been there.** -/
theorem asked_erase {before after : List (List UInt8)} {line : List UInt8}
    (h : linesOf m.host.input = before ++ line :: after) (h' : m'.host.input = (before ++ after).flatten)
    (hn : before.length ≤ n) :
    (askedResults token (n + 1) m).eraseIdx before.length = askedResults token n m' := by
  -- On the lines before the broken one: each is the first of both inputs, and is taken off both.
  induction before generalizing m m' n with
  | nil =>
    apply askedResults_congr (m := { m with host := m.host.skipLine })
    rw [h']
    exact input_skipLine h
  | cons first before ih =>
    obtain ⟨n, rfl⟩ : ∃ j, n = j + 1 := ⟨n - 1, by rw [List.length_cons] at hn; omega⟩
    have hlined : Lined (first :: before ++ line :: after) := h ▸ lined_linesOf _
    have hlines : linesOf m'.host.input = first :: before ++ after := by
      rw [h']
      exact hlined.erase
    have hfirst : Errand.result ⟨token, .input, [], m⟩ = Errand.result ⟨token, .input, [], m'⟩ := by
      rw [Errand.result_input rfl, Errand.result_input rfl]
      dsimp only
      rw [h, hlines]
      rfl
    have hrest : linesOf m.host.skipLine.input = before ++ line :: after := by
      rw [input_skipLine h]
      exact hlined.tail
    have hothers := @ih n { m with host := m.host.skipLine } { m' with host := m'.host.skipLine } hrest
      (input_skipLine hlines) (by rw [List.length_cons] at hn; omega)
    exact List.cons_eq_cons.mpr ⟨hfirst, hothers⟩

/-- Where the input is over nothing more is read. -/
theorem asked_over (h : m.host.input = []) :
    askedResults token n m = List.replicate n (.ok (.string "")) := by
  induction n generalizing m with
  | zero => rfl
  | succ n ih =>
    have hrest : m.host.skipLine.input = [] := by
      rw [Host.skipLine, h]
      rfl
    rw [List.replicate_succ]
    exact List.cons_eq_cons.mpr ⟨Errand.result_over rfl h, @ih { m with host := _ } hrest⟩

end Asked

/-! ## Lines that have been written -/

/-- How a line can end. -/
inductive LineEnd where
  | newline | carriageReturn

/-- The bytes of it. -/
def LineEnd.bytes : LineEnd → List UInt8
  | newline => [10]
  | carriageReturn => [13, 10]

/-- The bytes of lines, each with its end, and of a last one without. -/
def written (lines : List (String × LineEnd)) (last : String) : List UInt8 :=
  lines.flatMap (fun line => encode line.1 ++ line.2.bytes) ++ encode last

section Written

variable {token : Token} {n : Nat} {m : Machine} {lines : List (String × LineEnd)} {last text : String}

/-- The first of them. -/
theorem linesOf_written {e : LineEnd} (htext : '\n' ∉ text.toList) :
    linesOf (written ((text, e) :: lines) last) = (encode text ++ e.bytes) :: linesOf (written lines last) := by
  have hnone : 10 ∉ encode text := fun hmem => htext (newline_mem_iff.mp hmem)
  have hwritten : written ((text, e) :: lines) last = (encode text ++ e.bytes) ++ written lines last := by
    rw [written, List.flatMap_cons, List.append_assoc]
    rfl
  rw [hwritten]
  cases e with
  | newline =>
    show linesOf (encode text ++ [10] ++ _) = _
    rw [List.append_assoc]
    exact linesOf_ended hnone
  | carriageReturn =>
    -- The carriage return belongs to the bytes before the newline, and is none itself.
    have hreturn : 10 ∉ encode text ++ [13] := by
      intro hmem
      rcases List.mem_append.mp hmem with hmem | hmem
      · exact hnone hmem
      · cases List.mem_singleton.mp hmem
    have hsplit : encode text ++ LineEnd.carriageReturn.bytes = (encode text ++ [13]) ++ [10] := by
      rw [List.append_assoc]
      rfl
    rw [hsplit, List.append_assoc]
    exact linesOf_ended hreturn

/-- A line that has been written has the text that was written. -/
theorem lineText_written {e : LineEnd} (htext : '\n' ∉ text.toList) (hend : text.toList.getLast? ≠ some '\r') :
    LineText (encode text ++ e.bytes) text := by
  cases e with
  | newline => exact .newline htext hend
  | carriageReturn => exact .carriageReturn htext

/-- Only the empty text is written with no bytes. -/
theorem encode_eq_nil (h : encode text = []) : text = "" := by
  have hdecode : decode (encode text) = .ok text := decode_eq_ok_iff.mpr rfl
  rw [h] at hdecode
  exact (Except.ok.inj hdecode).symm

/-- **Written lines are read back**, the last one just as it is, and then nothing for ever. -/
theorem asked_written {k : Nat} (hk : n ≤ k)
    (hlines : ∀ line ∈ lines, '\n' ∉ line.1.toList ∧ line.1.toList.getLast? ≠ some '\r')
    (hlast : '\n' ∉ last.toList) (h : m.host.input = written lines last) :
    askedResults token n m =
      ((lines.map Prod.fst ++ last :: List.replicate k "").take n).map (.ok <| .string ·) := by
  induction lines generalizing m n with
  | nil =>
    cases n with
    | zero => rfl
    | succ n =>
      have hinput : m.host.input = encode last := h
      have hnone : 10 ∉ encode last := fun hmem => hlast (newline_mem_iff.mp hmem)
      -- An empty last line is no line at all, but is read as the same.
      have hfirst : Errand.result ⟨token, .input, [], m⟩ = .ok (.string last) ∧
          m.host.skipLine.input = [] := by
        by_cases hempty : encode last = []
        · have hover : m.host.input = [] := hinput.trans hempty
          rw [encode_eq_nil hempty]
          refine ⟨Errand.result_over rfl hover, ?_⟩
          rw [Host.skipLine, hover]
          rfl
        · have hline : linesOf m.host.input = [encode last] := by
            rw [hinput]
            exact linesOf_unended hnone hempty
          exact ⟨Errand.result_text rfl hline (.unended hlast), input_skipLine hline⟩
      have hrest := @asked_over token n { m with host := m.host.skipLine } hfirst.2
      rw [List.map_nil, List.nil_append, List.take_succ_cons, List.take_replicate, List.map_cons,
        List.map_replicate, Nat.min_eq_left (by omega)]
      exact List.cons_eq_cons.mpr ⟨hfirst.1, hrest⟩
  | cons line lines ih =>
    cases n with
    | zero => rfl
    | succ n =>
      obtain ⟨text, e⟩ := line
      obtain ⟨⟨htext, hend⟩, hothers⟩ := List.forall_mem_cons.mp hlines
      have hsplit : linesOf m.host.input = (encode text ++ e.bytes) :: linesOf (written lines last) := by
        rw [h]
        exact linesOf_written htext
      have hfirst := Errand.result_text (e := ⟨token, .input, [], m⟩) rfl hsplit (lineText_written htext hend)
      have hinput : m.host.skipLine.input = written lines last := by
        rw [input_skipLine hsplit, flatten_linesOf]
      have hrest := @ih n { m with host := m.host.skipLine } (by omega) hothers hinput
      rw [List.map_cons, List.cons_append, List.take_succ_cons, List.map_cons]
      exact List.cons_eq_cons.mpr ⟨hfirst, hrest⟩

end Written

/-! ## Everything -/

/-- **Input is split into its lines, and nothing of it is lost.**  Written lines are read back by calls of
    `input` in their order, and then nothing for ever; a last line without an end is read just as it is.
    Whatever the bytes are, and whatever else is called, in whatever session, each call of `input` takes
    exactly the next line, even if that is no text and the call fails; and the calls behind it give what they
    would without that line. -/
theorem input_splits_losslessly :
    (∀ token n m lines last, (∀ line ∈ lines, '\n' ∉ line.1.toList ∧ line.1.toList.getLast? ≠ some '\r') →
      '\n' ∉ last.toList → m.host.input = written lines last → askedResults token n m =
        ((lines.map Prod.fst ++ last :: List.replicate n "").take n).map (.ok <| .string ·)) ∧
    (∀ host es host', Relay host es host' →
      host'.input = ((linesOf host.input).drop (asksOf es).length).flatten ∧
      ∀ i e, (asksOf es)[i]? = some e → e.machine.host.input = ((linesOf host.input).drop i).flatten ∧
        e.behind.input = ((linesOf host.input).drop (i + 1)).flatten ∧
        Asked e.token (linesOf host.input)[i]? e.result) ∧
    ((∀ text rest, 10 ∉ text → linesOf (text ++ 10 :: rest) = (text ++ [10]) :: linesOf rest) ∧
      (∀ text, 10 ∉ text → text ≠ [] → linesOf text = [text]) ∧ linesOf [] = []) ∧
    (∀ interactive host dealings s, (Session.start interactive host).History dealings s →
      Relay host (errandsOf (historyOf (turnsOf dealings))) s.machine.host) ∧
    (∀ token n m, ∃ host, Relay m.host (asked token n m) host) ∧
    (∀ e n, Eval.call (n + 1) (.native e.native) e.token e.given e.machine =
      match Errand.result e with
      | .ok v => .done v { e.machine with host := e.behind }
      | .error error => .failed error { e.machine with host := e.behind }) ∧
    ∀ token n m m' before line after, linesOf m.host.input = before ++ line :: after →
      m'.host.input = (before ++ after).flatten → before.length ≤ n →
      (askedResults token (n + 1) m).eraseIdx before.length = askedResults token n m' := by
  -- Each clause is one of the results above.
  refine ⟨?_, fun _ _ _ => Relay.asks, ⟨fun _ _ => linesOf_ended, fun _ => linesOf_unended, rfl⟩,
    fun _ _ _ _ => relay_of_history, fun _ _ _ => asked_relay, fun e n => e.call_run n,
    fun _ _ _ _ _ _ _ => asked_erase⟩
  intro token n m lines last hlines hlast h
  exact asked_written (Nat.le_refl n) hlines hlast h

/-- A machine with these bytes to read. -/
def Machine.reading (bytes : List UInt8) : Machine := .start ⟨bytes, #[], .whole, fun _ => 0, 0⟩

/-- Between a line and a last one without an end, which itself ends with a carriage return, there is a line
    that is no text. -/
theorem input_splits_losslessly_broken :
    (askedResults ⟨.mark .rightParen, ")", 1⟩ 4 (.reading [97, 13, 10, 255, 10, 98, 13])).eraseIdx 1 =
      [.ok (.string "a"), .ok (.string "b\r"), .ok (.string "")] := by
  obtain ⟨hwritten, -, -, -, -, -, herase⟩ := input_splits_losslessly
  have hbytes : [97, 13, 10, 98, 13] = written [("a", .carriageReturn)] "b\r" := by
    simp only [written, encode_eq_bytes, LineEnd.bytes]
    decide
  have herased := herase ⟨.mark .rightParen, ")", 1⟩ 3 (.reading [97, 13, 10, 255, 10, 98, 13])
    (.reading [97, 13, 10, 98, 13]) [[97, 13, 10]] [255, 10] [[98, 13]] (by decide) rfl (by decide)
  have hread := hwritten ⟨.mark .rightParen, ")", 1⟩ 3 (.reading [97, 13, 10, 98, 13])
    [("a", .carriageReturn)] "b\r" (by decide) (by decide) hbytes
  exact herased.trans hread

end Lox
