import Lox.Token

/-!
  What can be wrong with a program.

  Faults are causes, one enumeration for each stage: reading characters, reading tokens, matching names
  with declarations, running.  So a production of the grammar cannot report what only a running program can
  do wrong, and what a fault is about is known without reading its text.

  `message` gives the wording of each.  A wording that names something takes the name from the token at
  which the fault is reported.  The many wordings of the form that something is expected somewhere are one
  fault with a place as parameter (`Place`, `NameRole`, `BlockOwner`); the place says which mark is missing
  and how this is put.

  An error (`RuntimeError`) is a fault with its token, since a program that fails does so at one.
-/

namespace Lox

/-! ## Characters -/

/-- What can be wrong with the characters of a program. -/
inductive LexicalFault where
  | unexpectedCharacter (c : Char)
  | unterminatedString
  | unterminatedComment
  deriving DecidableEq, Repr

/-- The fault in words. -/
def LexicalFault.message : LexicalFault → String
  | unexpectedCharacter c => "Unexpected character: " ++ c.toString
  | unterminatedString => "Unterminated string."
  | unterminatedComment => "Unterminated block comment."

/-! ## Tokens

  A fault of tokens is nearly always that something is missing.  What is missing, and where, is a parameter; so
  the wordings are made in one place, and no two places can share one by accident. -/

/-- The three things that have parameters and a body. -/
inductive Routine where
  | function | method | lambda
  deriving DecidableEq, Repr

/-- The routine in words. -/
def Routine.text : Routine → String
  | function => "function"
  | method => "method"
  | lambda => "lambda"

/-- The places at which the grammar asks for one particular mark. -/
inductive Place where
  | classStart | classEnd
  | parametersStart (owner : Routine) | parametersEnd | bodyStart (owner : Routine) | blockEnd
  | variableEnd | initializerEnd | conditionEnd | returnEnd | breakEnd | expressionEnd
  | argumentsEnd | groupingEnd | branches | superProperty
  deriving DecidableEq, Repr

namespace Place

/-- The mark that has to stand at the place. -/
def mark : Place → Mark
  | classStart | bodyStart _ => .leftBrace
  | classEnd | blockEnd => .rightBrace
  | parametersStart _ => .leftParen
  | parametersEnd | argumentsEnd | groupingEnd => .rightParen
  | variableEnd | initializerEnd | conditionEnd | returnEnd | breakEnd | expressionEnd => .semicolon
  | branches => .colon
  | superProperty => .dot

/-- The place in words. -/
def text : Place → String
  | classStart => "before class body"
  | classEnd => "after class body"
  | parametersStart .lambda => "after 'func' in lambda"
  | parametersStart owner => "after " ++ owner.text ++ " name"
  | parametersEnd => "after parameters"
  | bodyStart owner => "before " ++ owner.text ++ " body"
  | blockEnd => "after block"
  | variableEnd => "after variable declaration"
  | initializerEnd => "after loop initializer"
  | conditionEnd => "after loop condition"
  | returnEnd => "after return value"
  | breakEnd => "after 'break'"
  | expressionEnd => "after expression"
  | argumentsEnd => "after arguments"
  | groupingEnd => "after expression"
  | branches => "between the branches of a conditional expression"
  | superProperty => "after 'super'"

end Place

/-- The names that the grammar asks for. -/
inductive NameRole where
  | ofClass | ofSuperclass | ofRoutine (owner : Routine) | ofParameter | ofVariable | ofProperty
  | ofSuperMethod
  deriving DecidableEq, Repr

/-- The name in words. -/
def NameRole.text : NameRole → String
  | ofClass => "class name"
  | ofSuperclass => "superclass name"
  | ofRoutine owner => owner.text ++ " name"
  | ofParameter => "parameter name"
  | ofVariable => "variable name"
  | ofProperty => "property name after '.'"
  | ofSuperMethod => "superclass method name"

/-- The statements whose bodies have to be blocks. -/
inductive BlockOwner where
  | forLoop | whileLoop | ifBranch | elseBranch
  deriving DecidableEq, Repr

/-- The statement in words. -/
def BlockOwner.text : BlockOwner → String
  | forLoop => "for loop"
  | whileLoop => "while loop"
  | ifBranch => "if statement"
  | elseBranch => "else statement"

/-- What can be wrong with the tokens of a program. -/
inductive SyntacticFault where
  /-- Another token stands where a place asks for a mark. -/
  | missing (place : Place)
  | noName (role : NameRole)
  | noExpression
  /-- A class body holds methods only. -/
  | noMethod
  | noBlock (owner : BlockOwner)
  | invalidTarget
  | strayBreak
  deriving DecidableEq, Repr

/-- The fault in words. -/
def SyntacticFault.message : SyntacticFault → String
  | missing place => "Expected '" ++ place.mark.text ++ "' " ++ place.text ++ "."
  | noName role => "Expected " ++ role.text ++ "."
  | noExpression => "Expected expression."
  | noMethod => "Expected 'func' before method declaration."
  | noBlock owner => owner.text ++ " bodies must be a block."
  | invalidTarget => "Invalid assignment target."
  | strayBreak => "A break statement is not allowed outside of a loop."

/-! ## Names -/

/-- What can be wrong with the names of a program. -/
inductive ScopingFault where
  | alreadyDeclared
  | ownInitializer
  | topLevelReturn
  | initializerReturn
  | selfInheritance
  | thisOutsideClass
  | superOutsideClass
  | superWithoutSuperclass
  deriving DecidableEq, Repr

/-- The fault in words. -/
def ScopingFault.message : ScopingFault → String
  | alreadyDeclared => "Already a variable with this name in this scope."
  | ownInitializer => "Can't read local variable in its own initializer."
  | topLevelReturn => "Can't return from top-level code."
  | initializerReturn => "Can't return a value from an initializer."
  | selfInheritance => "A class can't inherit from itself."
  | thisOutsideClass => "Can't use 'this' outside of a class."
  | superOutsideClass => "Can't use 'super' outside of a class."
  | superWithoutSuperclass => "Can't use 'super' in a class with no superclass."

/-! ## Running

  These are all the causes for which a program can end before its time.  Which of them an accepted program can
  meet at all is the subject of `Lox.Proofs.Lexical.Safety`. -/

/-- What can go wrong while a program runs. -/
inductive RuntimeFault where
  | alreadyDefined
  | notInitialized
  | undefinedVariable
  /-- A name was looked for further out than there are frames. -/
  | noEnclosingScope
  | operandNotNumber
  | operandsNotNumbers
  | operandsNotAddable
  | invalidUnary
  | invalidBinary
  | notCallable
  | noProperties
  | noFields
  | undefinedProperty
  | directInitializer
  | superclassNotClass
  | superOutsideClass
  | thisNotInstance
  | unreadableInput
  /-- The sink has not taken all that was printed. -/
  | refusedOutput (cause : String)
  deriving DecidableEq, Repr

/-- The fault in words, when it is reported at a token with the given lexeme. -/
def RuntimeFault.message (fault : RuntimeFault) (lexeme : String) : String :=
  match fault with
  | alreadyDefined => "Variable '" ++ lexeme ++ "' is already defined in this scope."
  | notInitialized => "Variable '" ++ lexeme ++ "' is not initialized."
  | undefinedVariable => "Undefined variable '" ++ lexeme ++ "'."
  | noEnclosingScope => "No enclosing scope holds '" ++ lexeme ++ "'."
  | operandNotNumber => "Operand must be a number."
  | operandsNotNumbers => "Operands must be numbers."
  | operandsNotAddable => "Operands must be two numbers or two strings."
  | invalidUnary => "Invalid unary operator '" ++ lexeme ++ "'."
  | invalidBinary => "Invalid binary operator '" ++ lexeme ++ "'."
  | notCallable => "Can only call functions and classes."
  | noProperties => "Only instances have properties."
  | noFields => "Only instances have fields."
  | undefinedProperty => "Undefined property '" ++ lexeme ++ "'."
  | directInitializer => "Can't call an initializer directly."
  | superclassNotClass => "Superclass must be a class."
  | superOutsideClass => "Can't use 'super' outside of a class."
  | thisNotInstance => "'this' is not an instance."
  | unreadableInput => "Failed to read input: stream did not contain valid UTF-8"
  | refusedOutput cause => "Failed to print: " ++ cause

/-- A fault that ended a run, and the token at which it did. -/
structure RuntimeError where
  token : Token
  fault : RuntimeFault
  deriving DecidableEq

namespace RuntimeError

/-- The error in words. -/
def message (e : RuntimeError) : String := e.fault.message e.token.lexeme

/-- The error in words, with its line. -/
def text (e : RuntimeError) : String := e.message ++ "\n[line " ++ toString e.token.line ++ "]"

end RuntimeError

end Lox
