import Lox.Number.Text
import Lox.Text.Quoted

/-!
  Tokens: what a program text is made of.

  A token has a kind, the characters it was read from and a line.  Marks and keywords are two closed sets with
  one spelling each, listed by `all`; so which lexemes there are is a table, and scanning looks them up in it.
  Strings and numbers carry what they stand for.

  `trace` and `json` are the two ways in which a token is printed.  JSON leaves several texts for one number,
  and which of them is written is no matter of the language; so `json` takes it as a parameter, and what is
  proved about listings holds for every choice.

  The end of a program is a token too.  It has no characters, and the line on which the text ends.
-/

namespace Lox

/-! ## Marks and keywords -/

/-- The marks of the language. -/
inductive Mark where
  | leftParen | rightParen | leftBrace | rightBrace
  | comma | dot | minus | plus | semicolon | slash | star | percent | question | colon
  | bang | bangEqual | equal | equalEqual | greater | greaterEqual | less | lessEqual
  deriving DecidableEq, Repr

namespace Mark

/-- All marks. -/
def all : List Mark :=
  [leftParen, rightParen, leftBrace, rightBrace, comma, dot, minus, plus, semicolon, slash, star,
    percent, question, colon, bang, bangEqual, equal, equalEqual, greater, greaterEqual, less,
    lessEqual]

/-- How the mark is written in a program. -/
def text : Mark → String
  | leftParen => "("
  | rightParen => ")"
  | leftBrace => "\x7b"
  | rightBrace => "\x7d"
  | comma => ","
  | dot => "."
  | minus => "-"
  | plus => "+"
  | semicolon => ";"
  | slash => "/"
  | star => "*"
  | percent => "%"
  | question => "?"
  | colon => ":"
  | bang => "!"
  | bangEqual => "!="
  | equal => "="
  | equalEqual => "=="
  | greater => ">"
  | greaterEqual => ">="
  | less => "<"
  | lessEqual => "<="

/-- What the mark is called. -/
def name : Mark → String
  | leftParen => "LEFT_PAREN"
  | rightParen => "RIGHT_PAREN"
  | leftBrace => "LEFT_BRACE"
  | rightBrace => "RIGHT_BRACE"
  | comma => "COMMA"
  | dot => "DOT"
  | minus => "MINUS"
  | plus => "PLUS"
  | semicolon => "SEMICOLON"
  | slash => "SLASH"
  | star => "STAR"
  | percent => "PERCENT"
  | question => "QUESTION"
  | colon => "COLON"
  | bang => "BANG"
  | bangEqual => "BANG_EQUAL"
  | equal => "EQUAL"
  | equalEqual => "EQUAL_EQUAL"
  | greater => "GREATER"
  | greaterEqual => "GREATER_EQUAL"
  | less => "LESS"
  | lessEqual => "LESS_EQUAL"

end Mark

/-- The reserved words. -/
inductive Keyword where
  | andKw | breakKw | classKw | elseKw | falseKw | funcKw | forKw | ifKw
  | nilKw | orKw | returnKw | superKw | thisKw | trueKw | varKw | whileKw
  deriving DecidableEq, Repr

namespace Keyword

/-- All reserved words. -/
def all : List Keyword :=
  [andKw, breakKw, classKw, elseKw, falseKw, funcKw, forKw, ifKw, nilKw, orKw, returnKw, superKw,
    thisKw, trueKw, varKw, whileKw]

theorem mem_all (k : Keyword) : k ∈ all := by cases k <;> decide

/-- How the keyword is written in a program. -/
def text : Keyword → String
  | andKw => "and"
  | breakKw => "break"
  | classKw => "class"
  | elseKw => "else"
  | falseKw => "false"
  | funcKw => "func"
  | forKw => "for"
  | ifKw => "if"
  | nilKw => "nil"
  | orKw => "or"
  | returnKw => "return"
  | superKw => "super"
  | thisKw => "this"
  | trueKw => "true"
  | varKw => "var"
  | whileKw => "while"

/-- What the keyword is called: its spelling in capitals. -/
def name (k : Keyword) : String := k.text.map Char.toUpper

/-- The keyword with a given spelling. -/
def ofText? (s : String) : Option Keyword := all.find? (·.text = s)

end Keyword

/-! ## Kinds -/

/-- The kinds of tokens. -/
inductive TokenKind where
  | mark (m : Mark)
  | keyword (k : Keyword)
  | identifier
  /-- A string literal, with the text it stands for. -/
  | string (value : String)
  /-- A number literal, with the number it stands for. -/
  | number (value : Float)
  /-- The end of the program. -/
  | eof
  deriving DecidableEq

namespace TokenKind

/-- What the kind is called. -/
def name : TokenKind → String
  | mark m => m.name
  | keyword k => k.name
  | identifier => "IDENTIFIER"
  | string _ => "STRING"
  | number _ => "NUMBER"
  | eof => "EOF"

/-- What a literal stands for, as text; `null` for all other kinds. -/
def literal : TokenKind → String
  | string s => s
  | number x => Number.text x
  | _ => "null"

/-- The kind in a JSON document: its name, with the value where there is one.  How a number is written there
    is left open. -/
def json (numberText : Float → String) : TokenKind → String
  | string s => "\x7b\"STRING\":" ++ Text.jsonString s ++ "\x7d"
  | number x => "\x7b\"NUMBER\":" ++ numberText x ++ "\x7d"
  | kind => Text.jsonString kind.name

end TokenKind

/-! ## Tokens -/

/-- A token of a program. -/
structure Token where
  kind : TokenKind
  /-- The characters the token was read from. -/
  lexeme : String
  /-- The line on which the token ends. -/
  line : Nat
  deriving DecidableEq

namespace Token

/-- The end of a program whose last line is `line`. -/
def finish (line : Nat) : Token := ⟨.eof, "", line⟩

/-- A name that no program text holds. -/
def named (name : String) (line : Nat) : Token := ⟨.identifier, name, line⟩

/-- Whether the token is the end of the program. -/
def isEof (t : Token) : Bool := decide (t.kind = .eof)

/-- The token on one line: kind, lexeme and literal. -/
def trace (t : Token) : String := t.kind.name ++ " " ++ t.lexeme ++ " " ++ t.kind.literal

/-- The token as a JSON document; the numbers in it are written as JSON documents write them, unless
    otherwise said. -/
def json (t : Token) (numberText : Float → String := Number.json) : String :=
  "\x7b\"token_type\":" ++ t.kind.json numberText ++ ",\"lexeme\":" ++ Text.jsonString t.lexeme ++
    ",\"line\":" ++ toString t.line ++ "\x7d"

end Token

end Lox
