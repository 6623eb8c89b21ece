import Mycel.Position
import Mycel.Text.Quoted

/-!
# Tokens

A source is a sequence of tokens with blanks and comments between them. A token is a lexeme at a
position. This file also says which bytes belong to which class of lexeme.
-/

namespace Mycel

/-- The reserved words. -/
inductive Keyword where
  | letWord
  | ifWord
  | thenWord
  | elseWord
  | lambdaWord
  | trueWord
  | falseWord
  deriving DecidableEq, Repr

namespace Keyword

/-- All reserved words. -/
def all : List Keyword := [letWord, ifWord, thenWord, elseWord, lambdaWord, trueWord, falseWord]

/-- How a reserved word is written. -/
def spelling : Keyword → Text
  | letWord => bytes "let"
  | ifWord => bytes "if"
  | thenWord => bytes "then"
  | elseWord => bytes "else"
  | lambdaWord => bytes "lambda"
  | trueWord => bytes "true"
  | falseWord => bytes "false"

/-- The reserved word with a given spelling. -/
def ofSpelling? (t : Text) : Option Keyword := all.find? fun k => k.spelling == t

end Keyword

/-- The punctuation marks. -/
inductive Mark where
  | comma
  | semicolon
  | openParen
  | closeParen
  | openBrace
  | closeBrace
  | openBracket
  | closeBracket
  deriving DecidableEq, Repr

namespace Mark

/-- All punctuation marks. -/
def all : List Mark :=
  [comma, semicolon, openParen, closeParen, openBrace, closeBrace, openBracket, closeBracket]

/-- The byte of a punctuation mark. -/
def byte : Mark → UInt8
  | comma => 44
  | semicolon => 59
  | openParen => 40
  | closeParen => 41
  | openBrace => 123
  | closeBrace => 125
  | openBracket => 91
  | closeBracket => 93

/-- The mark that a byte is. -/
def ofByte? (b : UInt8) : Option Mark := all.find? fun m => m.byte == b

end Mark

/-- What a token says. -/
inductive Lexeme where
  /-- A number, as written and as read. -/
  | number (literal : Text) (value : Float)
  /-- A string, without its quotes and escapes. -/
  | string (value : Text)
  | identifier (name : Text)
  | keyword (word : Keyword)
  /-- A run of operator characters. -/
  | operator (spelling : Text)
  | mark (m : Mark)
  | endOfInput
  deriving DecidableEq, Repr

namespace Lexeme

/-- The text that a lexeme carries. -/
def literal : Lexeme → Text
  | number literal _ => literal
  | string value => value
  | identifier name => name
  | keyword word => word.spelling
  | operator spelling => spelling
  | mark m => [m.byte]
  | endOfInput => []

/-- The kind of a lexeme, in diagnostics. -/
def kind : Lexeme → Text
  | number _ _ => bytes "number"
  | string _ => bytes "string"
  | identifier _ => bytes "identifier"
  | keyword _ => bytes "keyword"
  | operator _ => bytes "operator"
  | mark _ => bytes "punctuation"
  | endOfInput => bytes "end of input"

/-- A lexeme in diagnostics: its kind and, in quotes, its text. -/
def describe : Lexeme → Text
  | endOfInput => kind endOfInput
  | l => l.kind ++ bytes " " ++ Quoted.text l.literal

end Lexeme

/-- A lexeme and where it stands. -/
structure Token where
  lexeme : Lexeme
  pos : Pos
  deriving DecidableEq, Repr

/-! ### Classes of bytes -/

/-- Space, tab, line feed and carriage return stand between tokens. -/
def isBlank (b : UInt8) : Bool := b == 32 || b == 9 || b == 10 || b == 13

/-- The byte that starts a comment, which runs to the end of its line. -/
def commentSign : UInt8 := 35

/-- The byte around strings. -/
def quoteSign : UInt8 := 34

/-- The byte that makes the next byte of a string part of it. -/
def escapeSign : UInt8 := 92

/-- ASCII letters and the underscore start a name. -/
def isNameStart (b : UInt8) : Bool := (97 ≤ b && b ≤ 122) || (65 ≤ b && b ≤ 90) || b == 95

/-- A name goes on with letters, digits, the underscore and any of `?!-<>=`. -/
def isNamePart (b : UInt8) : Bool :=
  isNameStart b || (48 ≤ b && b ≤ 57) || (bytes "?!-<>=").contains b

/-- The bytes of operators. -/
def isOperatorByte (b : UInt8) : Bool := (bytes "+-*/%=&|<>!").contains b

end Mycel
