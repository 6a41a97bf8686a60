import Lox.Proofs.Printing.Outlines
import Lox.Proofs.Printing.Worded
import Lox.Syntax.Outline

/-!
  What the details in the labels of an outline say.

  The label of a node holds the text of a token, of a constant, of a signature or of the names of a class.  Each
  of these can be told from its text:

  * A lexeme makes tokens of one kind only, so a token is told from its text, but for its line
    (`bare_of_lexeme`).
  * Constants begin with a character that tells their sort (`LiteralSort.ofLead`): a digit or the `i` of `inf`
    for numbers, a quote for strings, and different letters for the three words.  Those of one sort are told
    from their text (`Literal.outlineText_inj`), numbers because printing them loses nothing
    (`Number.text_shown_inj`).
  * The names of a signature and those of a class are told from theirs, because no name holds a bracket, a comma
    or a space (`signatureText_inj`, `classLabel_inj`).

  A number in a program has no sign (`Unsigned`), which is why it cannot be taken for another constant.  It may
  be infinite, if its digits are too many for a double.
-/

namespace Lox

/-! ## Tokens without their lines -/

/-- The token on no line. -/
def Token.bare (t : Token) : Token := { t with line := 0 }

/-- Lexemes that are the same make the same token. -/
theorem bare_of_lexeme {t t' : Token} (h : t.Legal) (h' : t'.Legal) (heq : t.lexeme = t'.lexeme) :
    t.bare = t'.bare := by
  obtain ⟨kind, lexeme, line⟩ := t
  obtain ⟨kind', lexeme', line'⟩ := t'
  obtain rfl : lexeme = lexeme' := heq
  obtain rfl : kind = kind' := IsLexeme.kind_unique h h'
  rfl

/-- A mark is written in one way. -/
theorem Token.Is.mark {t : Token} {m : Mark} (h : t.Is (.mark m)) : t.bare = ⟨.mark m, m.text, 0⟩ := by
  obtain ⟨kind, lexeme, line⟩ := t
  obtain ⟨rfl, hlegal⟩ := h
  have htext : lexeme.toList = m.text.toList := by
    generalize htoken : lexeme.toList = text at hlegal
    rw [Token.Legal, htoken] at hlegal
    cases hlegal
    rfl
  rw [String.toList_injective htext]
  rfl

/-- A keyword is written in one way. -/
theorem Token.Is.keyword {t : Token} {k : Keyword} (h : t.Is (.keyword k)) :
    t.bare = ⟨.keyword k, k.text, 0⟩ := by
  obtain ⟨kind, lexeme, line⟩ := t
  obtain ⟨rfl, hlegal⟩ := h
  have htext : lexeme.toList = k.text.toList := by
    rw [Token.Legal] at hlegal
    generalize htoken : lexeme.toList = text at hlegal
    cases hlegal
    rfl
  rw [String.toList_injective htext]
  rfl

/-- A name has the characters of one. -/
theorem Token.Is.shape {t : Token} (h : t.Is .identifier) : NameShape t.lexeme.toList := by
  obtain ⟨hkind, hlegal⟩ := h
  rw [Token.Legal, hkind] at hlegal
  generalize t.lexeme.toList = text at hlegal
  -- Only a string can have a newline, and a token that is no constant is none.
  cases hlegal with
  | identifier hshape _ => exact hshape

theorem Token.Is.ne_nil {t : Token} (h : t.Is .identifier) : t.lexeme.toList ≠ [] := by
  obtain ⟨c, rest, hlexeme, -⟩ := h.shape
  rw [hlexeme]
  exact List.cons_ne_nil _ _

/-- What is no part of a name is in none. -/
theorem Token.Is.free {t : Token} (h : t.Is .identifier) {c : Char} (hc : isNamePart c = false) :
    c ∉ t.lexeme.toList := by
  obtain ⟨d, rest, hlexeme, hd, hrest⟩ := h.shape
  rw [hlexeme]
  intro hmem
  rcases List.mem_cons.mp hmem with rfl | hmem
  · rw [isNamePart_of_start hd] at hc
    cases hc
  · rw [hrest c hmem] at hc
    cases hc

/-- A lexeme that is no constant is on one line. -/
theorem Token.NoConstant.line {t : Token} (h : t.NoConstant) : OneLine t.lexeme := by
  obtain ⟨kind, lexeme, line⟩ := t
  obtain ⟨hlegal, hnone⟩ := h
  rw [Token.Legal] at hlegal
  simp only [OneLine] at hlegal hnone ⊢
  generalize lexeme.toList = text at hlegal
  cases hlegal with
  | mark m => cases m <;> decide
  | keyword k => cases k <;> decide
  | identifier hshape _ => exact List.count_eq_zero.mp hshape.newlines
  | whole hdigits =>
    intro hmem
    exact absurd (hdigits.2 _ hmem) (by decide)
  | fraction hdigits hplaces =>
    intro hmem
    rcases List.mem_append.mp hmem with hmem | hmem
    · exact absurd (hdigits.2 _ hmem) (by decide)
    · rcases List.mem_cons.mp hmem with hpoint | hmem
      · exact absurd hpoint (by decide)
      · exact absurd (hplaces.2 _ hmem) (by decide)
  | string _ => cases hnone

/-! ## Constants

  The sorts of constants are told apart by their first character, and within a sort by the text. -/

namespace Number

open Float.Model.UnpackedFloat

/-- There is one infinite double without a sign. -/
theorem eq_infinite {x : Float} (h : meaning x = .infinite false) :
    x = .ofModel (.pack (.infinity .positive)) := by
  have hunpack : x.toModel.unpack = .infinity .positive := by
    unfold meaning at h
    split at h
    · cases h
    · rename_i sign hunpack
      cases sign
      · cases h
      · exact hunpack
    · cases h
    · cases h
  have hpacked := congrArg Float.ofModel (pack_unpack x.toModel)
  rw [hunpack] at hpacked
  exact hpacked.symm

/-- How a number of the source is printed. -/
theorem text_shown {x : Float} (h : Unsigned x) :
    meaning x = .infinite false ∧ text x = "inf" ∨ IsLexeme (.number x) (text x).toList := by
  rcases h with hinfinite | ⟨m, q, hfinite⟩
  · refine .inl ⟨hinfinite, ?_⟩
    rw [text, hinfinite]
    rfl
  · have hlexeme := text_lexeme hfinite (.inl rfl)
    rw [nearest_of_meaning hfinite] at hlexeme
    exact .inr hlexeme

/-- How the text of a number of the source begins. -/
theorem text_head {x : Float} (h : Unsigned x) :
    ∃ c rest, (text x).toList = c :: rest ∧ (c.isDigit = true ∨ c = 'i') := by
  rcases text_shown h with ⟨-, htext⟩ | hlexeme
  · exact ⟨'i', ['n', 'f'], by rw [htext]; rfl, .inr rfl⟩
  · generalize (text x).toList = chars at hlexeme
    cases hlexeme with
    | whole hdigits =>
      obtain ⟨c, rest, rfl⟩ := List.exists_cons_of_ne_nil hdigits.1
      exact ⟨c, rest, rfl, .inl (hdigits.2 c List.mem_cons_self)⟩
    | fraction hdigits _ =>
      obtain ⟨c, rest, rfl⟩ := List.exists_cons_of_ne_nil hdigits.1
      exact ⟨c, _, rfl, .inl (hdigits.2 c List.mem_cons_self)⟩

/-- Numbers of the source with the same text are the same. -/
theorem text_shown_inj {x y : Float} (hx : Unsigned x) (hy : Unsigned y)
    (h : text x = text y) : x = y := by
  have hword : ∀ {z : Float}, ¬ IsLexeme (.number z) "inf".toList := by
    intro z hz
    rcases mem_numeral hz 'i' (by decide) with hdigit | hpoint
    · exact absurd hdigit (by decide)
    · exact absurd hpoint (by decide)
  -- The one infinite number prints a word, and no numeral is that word; numerals are told apart by their
  -- value.
  rcases text_shown hx with ⟨hinfinite, htext⟩ | hlexeme <;>
    rcases text_shown hy with ⟨hinfinite', htext'⟩ | hlexeme'
  · rw [eq_infinite hinfinite, eq_infinite hinfinite']
  · rw [← h, htext] at hlexeme'
    exact absurd hlexeme' hword
  · rw [h, htext'] at hlexeme
    exact absurd hlexeme hword
  · rw [h] at hlexeme
    injection hlexeme.kind_unique hlexeme'

end Number

/-- The sorts of constants. -/
inductive LiteralSort where
  | nil | yes | no | number | string

/-- The sort of a constant. -/
def Literal.sort : Literal → LiteralSort
  | .nil => .nil
  | .bool b => if b then .yes else .no
  | .number _ => .number
  | .string _ => .string

/-- The sort of the constants whose text begins with a character. -/
def LiteralSort.ofLead (c : Char) : LiteralSort :=
  if c = 'n' then .nil
  else if c = 't' then .yes
  else if c = 'f' then .no
  else if c = '"' then .string
  else .number

/-- The text of a constant begins with a character that tells its sort. -/
theorem Literal.ofLead_sort {P : String → Prop} {l : Literal} (h : l.Writable P) :
    ∃ c rest, l.outlineText.toList = c :: rest ∧ LiteralSort.ofLead c = l.sort := by
  cases l with
  | nil => exact ⟨'n', ['i', 'l'], rfl, rfl⟩
  | bool b =>
    cases b
    · exact ⟨'f', ['a', 'l', 's', 'e'], rfl, rfl⟩
    · exact ⟨'t', ['r', 'u', 'e'], rfl, rfl⟩
  -- A numeral begins with a digit, and an infinite number with a letter that begins no other constant.
  | number x =>
    obtain ⟨c, rest, htext, hc⟩ := Number.text_head h
    have hne : ∀ d : Char, d.isDigit = false → d ≠ 'i' → c ≠ d := by
      rintro d hdigit hi rfl
      rcases hc with hc | hc
      · rw [hc] at hdigit
        cases hdigit
      · exact hi hc
    refine ⟨c, rest, htext, ?_⟩
    rw [LiteralSort.ofLead, if_neg (hne 'n' rfl (by decide)), if_neg (hne 't' rfl (by decide)),
      if_neg (hne 'f' rfl (by decide)), if_neg (hne '"' rfl (by decide))]
    rfl
  | string s => exact ⟨'"', s.toList ++ ['"'], by simp [outlineText], rfl⟩

/-- **A constant of the source is told from its text.** -/
theorem Literal.outlineText_inj {P Q : String → Prop} {l l' : Literal} (h : l.Writable P)
    (h' : l'.Writable Q)
    (heq : l.outlineText = l'.outlineText) : l = l' := by
  -- The first character tells what sort of constant it is.
  have hsort : l.sort = l'.sort := by
    obtain ⟨c, rest, htext, hc⟩ := Literal.ofLead_sort h
    obtain ⟨c', rest', htext', hc'⟩ := Literal.ofLead_sort h'
    rw [heq, htext'] at htext
    obtain ⟨rfl, -⟩ := List.cons_eq_cons.mp htext
    exact hc.symm.trans hc'
  cases l with
  | nil =>
    cases l' with
    | nil => rfl
    | bool b => cases b <;> cases hsort
    | number _ | string _ => cases hsort
  | bool b =>
    cases l' with
    | bool b' =>
      cases b <;> cases b'
      case true.true | false.false => rfl
      all_goals cases hsort
    | nil | number _ | string _ => cases b <;> cases hsort
  | number x =>
    cases l' with
    | number y => rw [Number.text_shown_inj h h' heq]
    | bool b => cases b <;> cases hsort
    | nil | string _ => cases hsort
  | string s =>
    cases l' with
    | string s' =>
      have hquoted := congrArg String.toList heq
      simp only [outlineText, String.toList_append, List.append_cancel_left_eq,
        List.append_cancel_right_eq] at hquoted
      rw [String.toList_injective hquoted]
    | bool b => cases b <;> cases hsort
    | nil | number _ => cases hsort

/-- The text of a constant is on one line if its string is. -/
theorem Literal.outlineText_line {l : Literal} (h : l.Writable OneLine) : OneLine l.outlineText := by
  cases l with
  | nil => decide
  | bool b => cases b <;> decide
  | number x =>
    rcases Number.text_shown h with ⟨-, htext⟩ | hlexeme
    · rw [outlineText, htext]
      decide
    · intro hmem
      rcases Number.mem_numeral hlexeme _ hmem with hdigit | hpoint
      · exact absurd hdigit (by decide)
      · exact absurd hpoint (by decide)
  | string s =>
    exact oneLine_append.mpr ⟨oneLine_append.mpr ⟨by decide, h⟩, by decide⟩

/-! ## Signatures and classes

  Names have no bracket, comma or blank in them, so that these separate. -/

/-- **Names with commas between them are told from their text.** -/
theorem parameters_inj {ps ps' : List Token} (h : Names ps) (h' : Names ps')
    (heq : ", ".intercalate (ps.map Token.lexeme) = ", ".intercalate (ps'.map Token.lexeme)) :
    ps.map Token.lexeme = ps'.map Token.lexeme := by
  -- A comma ends the first name if there is a second one; a name has no comma in it.
  have hsplit : ∀ (s t : String) (rest : List String), (", ".intercalate (s :: t :: rest)).toList =
      s.toList ++ ',' :: ' ' :: (", ".intercalate (t :: rest)).toList := by
    intro s t rest
    rw [String.intercalate_cons_cons, String.toList_append, String.toList_append, List.append_assoc]
    rfl
  have hsingle : ∀ (p q r : Token) (rest : List Token), p.Is .identifier →
      (", ".intercalate ([p].map Token.lexeme)).toList ≠
        (", ".intercalate ((q :: r :: rest).map Token.lexeme)).toList := by
    intro p q r rest hp heq
    rw [List.map_singleton, String.intercalate_singleton, List.map_cons, List.map_cons, hsplit] at heq
    refine hp.free (c := ',') rfl ?_
    rw [heq]
    exact List.mem_append_right _ List.mem_cons_self
  have hnone : ∀ (p : Token) (rest : List Token), p.Is .identifier →
      ("" : String).toList ≠ (", ".intercalate ((p :: rest).map Token.lexeme)).toList := by
    intro p rest hp heq
    cases rest with
    | nil =>
      rw [List.map_singleton, String.intercalate_singleton] at heq
      exact hp.ne_nil heq.symm
    | cons q rest =>
      rw [List.map_cons, List.map_cons, hsplit] at heq
      simp at heq
  replace heq := congrArg String.toList heq
  induction ps generalizing ps' with
  | nil =>
    cases ps' with
    | nil => rfl
    | cons p' ps' => exact absurd heq (hnone p' ps' (h' p' List.mem_cons_self))
  | cons p ps ih =>
    obtain ⟨hp, hps⟩ := List.forall_mem_cons.mp h
    cases ps' with
    | nil => exact absurd heq.symm (hnone p ps hp)
    | cons p' ps' =>
      obtain ⟨hp', hps'⟩ := List.forall_mem_cons.mp h'
      cases ps with
      | nil =>
        cases ps' with
        | nil =>
          rw [List.map_singleton, List.map_singleton, String.intercalate_singleton,
            String.intercalate_singleton] at heq
          rw [List.map_singleton, List.map_singleton, String.toList_injective heq]
        | cons q' ps' => exact absurd heq (hsingle p p' q' ps' hp)
      | cons q ps =>
        cases ps' with
        | nil => exact absurd heq.symm (hsingle p' p q ps hp')
        | cons q' ps' =>
          rw [List.map_cons, List.map_cons, List.map_cons, List.map_cons, hsplit, hsplit] at heq
          obtain ⟨hfirst, hrest⟩ := Outline.split_inj (hp.free rfl) (hp'.free rfl) heq
          rw [List.map_cons, List.map_cons (f := Token.lexeme) (a := p'), String.toList_injective hfirst,
            ih hps hps' (List.cons.inj hrest).2]

/-- **The name and the parameters of a function are told from its signature.** -/
theorem signatureText_inj {name name' : Option Token} {ps ps' : List Token}
    (hname : ∀ t ∈ name, t.Is .identifier) (hname' : ∀ t ∈ name', t.Is .identifier) (h : Names ps)
    (h' : Names ps') (heq : signatureText name ps = signatureText name' ps') :
    name.map Token.lexeme = name'.map Token.lexeme ∧ ps.map Token.lexeme = ps'.map Token.lexeme := by
  have hsplit : ∀ (name : Option Token) (ps : List Token), (signatureText name ps).toList =
      (name.elim "" Token.lexeme).toList ++
        '(' :: ((", ".intercalate (ps.map Token.lexeme)).toList ++ [')']) := by
    intro name ps
    simp only [signatureText, String.toList_append, List.append_assoc]
    rfl
  -- The first bracket ends the name, which has none in it and is empty only for a lambda.
  have hfree : ∀ {name : Option Token}, (∀ t ∈ name, t.Is .identifier) →
      '(' ∉ (name.elim "" Token.lexeme).toList := by
    rintro (_ | t) hname
    · decide
    · exact (hname t rfl).free rfl
  have hlist := congrArg String.toList heq
  rw [hsplit, hsplit] at hlist
  obtain ⟨hfront, hrest⟩ := Outline.split_inj (hfree hname) (hfree hname') hlist
  refine ⟨?_, parameters_inj h h' (String.toList_injective (List.append_cancel_right hrest))⟩
  cases name with
  | none =>
    cases name' with
    | none => rfl
    | some t' => exact absurd hfront.symm (hname' t' rfl).ne_nil
  | some t =>
    cases name' with
    | none => exact absurd hfront (hname t rfl).ne_nil
    | some t' => exact congrArg some (String.toList_injective hfront)

/-- **The names of a class and of its superclass are told from its label.** -/
theorem classLabel_inj {name name' : Token} {ref ref' : Option Ref} (h : name.Is .identifier)
    (h' : name'.Is .identifier) (heq : classLabel name ref = classLabel name' ref') :
    name.lexeme = name'.lexeme ∧ ref.map (fun r => r.name.lexeme) = ref'.map fun r => r.name.lexeme := by
  -- A blank stands behind the name if a class is extended, and there is none in a name.
  have halone : ∀ name : Token, (classLabel name none).toList = name.lexeme.toList := by
    intro name
    simp [classLabel]
  have hextends : ∀ (name : Token) (ref : Ref), (classLabel name (some ref)).toList =
      name.lexeme.toList ++ ' ' :: '<' :: ' ' :: ref.name.lexeme.toList := by
    intro name ref
    simp only [classLabel, Option.elim, String.toList_append]
    rfl
  have hlist := congrArg String.toList heq
  cases ref with
  | none =>
    cases ref' with
    | none =>
      rw [halone, halone] at hlist
      exact ⟨String.toList_injective hlist, rfl⟩
    | some ref' =>
      rw [halone, hextends] at hlist
      refine absurd ?_ (h.free (c := ' ') rfl)
      rw [hlist]
      exact List.mem_append_right _ List.mem_cons_self
  | some ref =>
    cases ref' with
    | none =>
      rw [halone, hextends] at hlist
      refine absurd ?_ (h'.free (c := ' ') rfl)
      rw [← hlist]
      exact List.mem_append_right _ List.mem_cons_self
    | some ref' =>
      rw [hextends, hextends] at hlist
      obtain ⟨hfront, hrest⟩ := Outline.split_inj (h.free rfl) (h'.free rfl) hlist
      refine ⟨String.toList_injective hfront, congrArg some (String.toList_injective ?_)⟩
      exact (List.cons.inj (List.cons.inj hrest).2).2

end Lox
