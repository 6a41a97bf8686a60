import Mathlib.Data.List.Forall2
import Lox.Console

/-!
  What a listing of tokens says.

  The command line shows the tokens of a program, one on each line.  Here is said what stands on the line
  of a token, without the functions that write it: the word for its kind, its lexeme and what it stands for
  (`Traced`), or an object of JSON with the same in three members (`Documented`).

  * The word for a mark is made of the names of its characters, which are joined by a low line; that for a
    keyword is its spelling in capitals (`KindNamed`).
  * A string of JSON stands for a text if its pieces stand for the characters of the text one by one
    (`Quoted`).  A piece is the character itself, if it may stand for itself, an escape, or its number in
    base sixteen (`QuotedChar`).  This leaves a choice, as JSON does; which piece is chosen is of no
    matter for what the document says.
  * How a number is written in JSON is a parameter.

  `Listed` puts the lines together, one for each element of a list and in its order.  The theorems say that
  the functions of `Token` write such lines (`trace_traced`, `json_documented`) and that the command line
  lists them (`tokensText_listed`).
-/

namespace Lox

/-! ## Lines -/

/-- The text is made of lines, one for each element of the list, and in its order. -/
inductive Listed {α : Type} (line : α → String → Prop) : List α → String → Prop where
  | none : Listed line [] ""
  | line {a : α} {s : String} {as : List α} {rest : String} : line a s → Listed line as rest →
    Listed line (a :: as) (s ++ "\n" ++ rest)

/-- If each line is as it should be, so is the text of all of them. -/
theorem Listed.of_map {α : Type} {line : α → String → Prop} {f : α → String} {as : List α}
    (h : ∀ a ∈ as, line a (f a)) : Listed line as (String.join (as.map fun a => f a ++ "\n")) := by
  induction as with
  | nil => exact .none
  | cons a as ih =>
    obtain ⟨ha, has⟩ := List.forall_mem_cons.mp h
    rw [List.map_cons, String.join_cons]
    exact .line ha (ih has)

/-- Listings stand one behind the other. -/
theorem Listed.append {α : Type} {line : α → String → Prop} {as bs : List α} {s t : String}
    (h : Listed line as s) (h' : Listed line bs t) : Listed line (as ++ bs) (s ++ t) := by
  induction h with
  | none =>
    rw [String.empty_append]
    exact h'
  | line ha _ ih =>
    rw [String.append_assoc]
    exact .line ha ih

/-- The texts stand one behind the other, with a separator between them. -/
inductive Joined (separator : String) : List String → String → Prop where
  | none : Joined separator [] ""
  | one {s : String} : Joined separator [s] s
  | more {s s' : String} {ss : List String} {rest : String} : Joined separator (s' :: ss) rest →
    Joined separator (s :: s' :: ss) (s ++ separator ++ rest)

/-- A separator between any two. -/
theorem joined_intercalate (separator : String) (ss : List String) :
    Joined separator ss (separator.intercalate ss) := by
  induction ss with
  | nil => exact .none
  | cons s ss ih =>
    cases ss with
    | nil => exact .one
    | cons s' ss =>
      rw [String.intercalate_cons_cons]
      exact .more ih

/-! ## Kinds -/

/-- The name of a character of which marks are made. -/
inductive SymbolNamed : Char → String → Prop where
  | leftParen : SymbolNamed '(' "LEFT_PAREN"
  | rightParen : SymbolNamed ')' "RIGHT_PAREN"
  | leftBrace : SymbolNamed '\x7b' "LEFT_BRACE"
  | rightBrace : SymbolNamed '\x7d' "RIGHT_BRACE"
  | comma : SymbolNamed ',' "COMMA"
  | dot : SymbolNamed '.' "DOT"
  | minus : SymbolNamed '-' "MINUS"
  | plus : SymbolNamed '+' "PLUS"
  | semicolon : SymbolNamed ';' "SEMICOLON"
  | slash : SymbolNamed '/' "SLASH"
  | star : SymbolNamed '*' "STAR"
  | percent : SymbolNamed '%' "PERCENT"
  | question : SymbolNamed '?' "QUESTION"
  | colon : SymbolNamed ':' "COLON"
  | bang : SymbolNamed '!' "BANG"
  | equal : SymbolNamed '=' "EQUAL"
  | greater : SymbolNamed '>' "GREATER"
  | less : SymbolNamed '<' "LESS"

/-- The word for a kind of tokens. -/
inductive KindNamed : TokenKind → String → Prop where
  /-- The names of the characters of a mark, joined by a low line. -/
  | mark {m : Mark} {names : List String} {name : String} :
    List.Forall₂ SymbolNamed m.text.toList names → Joined "_" names name → KindNamed (.mark m) name
  /-- The spelling of a keyword, in capitals. -/
  | keyword {k : Keyword} {name : String} : name.toList.map Char.toLower = k.text.toList →
    (∀ c ∈ name.toList, c.isUpper = true) → KindNamed (.keyword k) name
  | identifier : KindNamed .identifier "IDENTIFIER"
  | string {s : String} : KindNamed (.string s) "STRING"
  | number {x : Float} : KindNamed (.number x) "NUMBER"
  | eof : KindNamed .eof "EOF"

/-- The name of each mark is made of the names of its characters. -/
theorem mark_named (m : Mark) : KindNamed (.mark m) m.name := by
  cases m with
  | leftParen => exact .mark (.cons .leftParen .nil) .one
  | rightParen => exact .mark (.cons .rightParen .nil) .one
  | leftBrace => exact .mark (.cons .leftBrace .nil) .one
  | rightBrace => exact .mark (.cons .rightBrace .nil) .one
  | comma => exact .mark (.cons .comma .nil) .one
  | dot => exact .mark (.cons .dot .nil) .one
  | minus => exact .mark (.cons .minus .nil) .one
  | plus => exact .mark (.cons .plus .nil) .one
  | semicolon => exact .mark (.cons .semicolon .nil) .one
  | slash => exact .mark (.cons .slash .nil) .one
  | star => exact .mark (.cons .star .nil) .one
  | percent => exact .mark (.cons .percent .nil) .one
  | question => exact .mark (.cons .question .nil) .one
  | colon => exact .mark (.cons .colon .nil) .one
  | bang => exact .mark (.cons .bang .nil) .one
  | bangEqual => exact .mark (.cons .bang (.cons .equal .nil)) (.more .one)
  | equal => exact .mark (.cons .equal .nil) .one
  | equalEqual => exact .mark (.cons .equal (.cons .equal .nil)) (.more .one)
  | greater => exact .mark (.cons .greater .nil) .one
  | greaterEqual => exact .mark (.cons .greater (.cons .equal .nil)) (.more .one)
  | less => exact .mark (.cons .less .nil) .one
  | lessEqual => exact .mark (.cons .less (.cons .equal .nil)) (.more .one)

/-- The name of each keyword is its spelling in capitals. -/
theorem keyword_named (k : Keyword) : KindNamed (.keyword k) k.name := by
  have hname : k.name.toList = k.text.toList.map Char.toUpper := String.toList_map
  have hspelled : (k.text.toList.map Char.toUpper).map Char.toLower = k.text.toList ∧
      ∀ c ∈ k.text.toList.map Char.toUpper, c.isUpper = true := by
    cases k <;> exact ⟨by decide, by simp [Keyword.text]⟩
  rw [← hname] at hspelled
  exact .keyword hspelled.1 hspelled.2

/-- **Every kind is called by its word.** -/
theorem kind_named (kind : TokenKind) : KindNamed kind kind.name := by
  cases kind with
  | mark m => exact mark_named m
  | keyword k => exact keyword_named k
  | identifier => exact .identifier
  | string s => exact .string
  | number x => exact .number
  | eof => exact .eof

/-! ## Lines of words -/

/-- What a token stands for, as text: a string is shown as it is, and a number as numbers are. -/
inductive LiteralShown : TokenKind → String → Prop where
  | string {s : String} : LiteralShown (.string s) s
  | number {x : Float} : LiteralShown (.number x) (Number.text x)
  | none {kind : TokenKind} : (∀ s, kind ≠ .string s) → (∀ x, kind ≠ .number x) → LiteralShown kind "null"

/-- The line of a token: the word for its kind, its lexeme and what it stands for. -/
inductive Traced (t : Token) : String → Prop where
  | line {name literal : String} : KindNamed t.kind name → LiteralShown t.kind literal →
    Traced t (name ++ " " ++ t.lexeme ++ " " ++ literal)

/-- What a token stands for is shown: nothing, a number or a text. -/
theorem literal_shown (kind : TokenKind) : LiteralShown kind kind.literal := by
  cases kind with
  | string s => exact .string
  | number x => exact .number
  | mark _ | keyword _ | identifier | eof => exact .none nofun nofun

/-- The line of a token has its kind, its lexeme and what it stands for. -/
theorem trace_traced (t : Token) : Traced t t.trace := .line (kind_named t.kind) (literal_shown t.kind)

/-! ## Documents

  A JSON document is described piece by piece: which characters stand for themselves between quotes, and how the
  others are written. -/

/-- The character is the digit of this value in base sixteen. -/
def HexDigit (c : Char) (value : Nat) : Prop := "0123456789abcdef".toList[value]? = some c

instance (c : Char) (value : Nat) : Decidable (HexDigit c value) :=
  inferInstanceAs (Decidable ("0123456789abcdef".toList[value]? = some c))

/-- A piece of a string of JSON that stands for a character. -/
inductive QuotedChar : Char → String → Prop where
  | plain {c : Char} : 0x20 ≤ c.toNat → c ≠ '"' → c ≠ '\\' → QuotedChar c c.toString
  | quote : QuotedChar '"' "\\\""
  | backslash : QuotedChar '\\' "\\\\"
  | newline : QuotedChar '\n' "\\n"
  | carriageReturn : QuotedChar '\r' "\\r"
  | tab : QuotedChar '\t' "\\t"
  | backspace : QuotedChar '\x08' "\\b"
  | formFeed : QuotedChar '\x0c' "\\f"
  | code {c d₃ d₂ d₁ d₀ : Char} {n₃ n₂ n₁ n₀ : Nat} : HexDigit d₃ n₃ → HexDigit d₂ n₂ → HexDigit d₁ n₁ →
    HexDigit d₀ n₀ → c.toNat = ((n₃ * 16 + n₂) * 16 + n₁) * 16 + n₀ →
    QuotedChar c (String.ofList ['\\', 'u', d₃, d₂, d₁, d₀])

/-- A string of JSON that stands for a text. -/
inductive Quoted (s : String) : String → Prop where
  | pieces {ps : List String} : List.Forall₂ QuotedChar s.toList ps →
    Quoted s ("\"" ++ String.join ps ++ "\"")

/-- The kind of a token in JSON: its word, as a string; with what it stands for, if it is a literal. -/
inductive KindDocumented (numberText : Float → String) : TokenKind → String → Prop where
  | string {s text : String} : Quoted s text →
    KindDocumented numberText (.string s) ("\x7b\"STRING\":" ++ text ++ "\x7d")
  | number {x : Float} : KindDocumented numberText (.number x) ("\x7b\"NUMBER\":" ++ numberText x ++ "\x7d")
  | bare {kind : TokenKind} {name text : String} : (∀ s, kind ≠ .string s) → (∀ x, kind ≠ .number x) →
    KindNamed kind name → Quoted name text → KindDocumented numberText kind text

/-- The object of JSON for a token: its kind, its lexeme and its line. -/
inductive Documented (numberText : Float → String) (t : Token) : String → Prop where
  | object {kind lexeme : String} : KindDocumented numberText t.kind kind → Quoted t.lexeme lexeme →
    Documented numberText t ("\x7b\"token_type\":" ++ kind ++ ",\"lexeme\":" ++ lexeme ++
      ",\"line\":" ++ toString t.line ++ "\x7d")

/-- A control character is written by its number. -/
theorem control_quoted {c : Char} (h : c.toNat < 0x20) :
    QuotedChar c ("\\u" ++ Text.hexText 4 c.toNat) := by
  have hdigits : ∀ n < 0x20, Text.hexText 4 n =
      String.ofList ['0', '0', Nat.digitChar (n / 16), Nat.digitChar (n % 16)] := by decide
  have hvalues : ∀ n < 16, HexDigit (Nat.digitChar n) n := by decide
  have hhigh := hvalues (c.toNat / 16) (by omega)
  have hlow := hvalues (c.toNat % 16) (by omega)
  have htext : "\\u" ++ Text.hexText 4 c.toNat = String.ofList ['\\', 'u', '0', '0',
      Nat.digitChar (c.toNat / 16), Nat.digitChar (c.toNat % 16)] := by
    refine String.toList_injective ?_
    simp only [hdigits _ h, String.toList_append, String.toList_ofList]
    rfl
  rw [htext]
  exact .code (hvalues 0 (by decide)) (hvalues 0 (by decide)) hhigh hlow (by omega)

/-- Each character is written as a piece that stands for it. -/
theorem char_quoted (c : Char) : QuotedChar c (Text.jsonChar c) := by
  unfold Text.jsonChar
  split_ifs with hquote hbackslash hnewline hreturn htab hbackspace hformFeed hcontrol
  · exact hquote ▸ .quote
  · exact hbackslash ▸ .backslash
  · exact hnewline ▸ .newline
  · exact hreturn ▸ .carriageReturn
  · exact htab ▸ .tab
  · exact hbackspace ▸ .backspace
  · exact hformFeed ▸ .formFeed
  · exact control_quoted hcontrol
  · exact .plain (Nat.not_lt.mp hcontrol) hquote hbackslash

/-- **A string of JSON stands for the text that it was made from.** -/
theorem string_quoted (s : String) : Quoted s (Text.jsonString s) := by
  refine .pieces ?_
  rw [List.forall₂_map_right_iff]
  exact List.forall₂_same.mpr fun c _ => char_quoted c

/-- The kind of a token as JSON. -/
theorem kind_documented (numberText : Float → String) (kind : TokenKind) :
    KindDocumented numberText kind (kind.json numberText) := by
  have hbare := string_quoted kind.name
  cases kind with
  | string s => exact .string (string_quoted s)
  | number x => exact .number
  | mark _ | keyword _ | identifier | eof => exact .bare nofun nofun (kind_named _) hbare

/-- A token as JSON: an object with its members in this order. -/
theorem json_documented (numberText : Float → String) (t : Token) :
    Documented numberText t (t.json numberText) :=
  .object (kind_documented numberText t.kind) (string_quoted t.lexeme)

/-! ## The whole listing -/

/-- What stands on the line of a token. -/
def TokenLine (numberText : Float → String) (asJson : Bool) : Token → String → Prop :=
  if asJson then Documented numberText else Traced

/-- **The command line lists the tokens**, one on each line. -/
theorem tokensText_listed (numberText : Float → String) (asJson : Bool) (tokens : List Token) :
    Listed (TokenLine numberText asJson) tokens (Console.tokensText numberText asJson tokens) := by
  have hline : ∀ t : Token, TokenLine numberText asJson t (if asJson then t.json numberText else t.trace) := by
    intro t
    cases asJson with
    | true => exact json_documented numberText t
    | false => exact trace_traced t
  rw [Console.tokensText, Console.linesText, List.map_map]
  exact .of_map fun t _ => hline t

end Lox
