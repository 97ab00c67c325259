/-
# Tokens

The words, literals and punctuation marks that a source text consists of, and how a message shows
them.
-/
import PropertyLint.Text.Range
import PropertyLint.Text.Quoted

namespace PropertyLint

/-- A punctuation mark. -/
inductive Punct where
  | arrow | equal | notEqual | lessEqual | greaterEqual | andAnd | orOr | coalesce
  | openBrace | closeBrace | openParen | closeParen | openBracket | closeBracket
  | semicolon | comma | dot | colon | assign | less | greater
  | plus | minus | star | slash | percent | bang | question | ampersand | bar
deriving DecidableEq, Repr

namespace Punct

/-- The characters of a mark. -/
def chars : Punct → List Char
  | arrow => ['=', '>']
  | equal => ['=', '=']
  | notEqual => ['!', '=']
  | lessEqual => ['<', '=']
  | greaterEqual => ['>', '=']
  | andAnd => ['&', '&']
  | orOr => ['|', '|']
  | coalesce => ['?', '?']
  | openBrace => ['\x7b']
  | closeBrace => ['\x7d']
  | openParen => ['(']
  | closeParen => [')']
  | openBracket => ['[']
  | closeBracket => [']']
  | semicolon => [';']
  | comma => [',']
  | dot => ['.']
  | colon => [':']
  | assign => ['=']
  | less => ['<']
  | greater => ['>']
  | plus => ['+']
  | minus => ['-']
  | star => ['*']
  | slash => ['/']
  | percent => ['%']
  | bang => ['!']
  | question => ['?']
  | ampersand => ['&']
  | bar => ['|']

/-- The text of a mark. -/
def text (p : Punct) : String := String.ofList p.chars

/-- All marks; a mark of two characters stands before the marks that it starts with. -/
def all : List Punct :=
  [arrow, equal, notEqual, lessEqual, greaterEqual, andAnd, orOr, coalesce, openBrace, closeBrace,
    openParen, closeParen, openBracket, closeBracket, semicolon, comma, dot, colon, assign, less,
    greater, plus, minus, star, slash, percent, bang, question, ampersand, bar]

/-- The longest mark that a text starts with. -/
def ofPrefix? (cs : List Char) : Option Punct := all.find? fun p => p.chars.isPrefixOf cs

end Punct

/-- What a token is.  A word lacks the `@` that may stand before it, and a string is held without
its escapes.  The end of the text counts as a token behind all others. -/
inductive TokenKind where
  | word (text : String)
  | string (value : String)
  | char (value : Char)
  | integer (value : Nat)
  | real (text : String)
  | punct (mark : Punct)
  | endOfText
deriving DecidableEq, Repr

/-- A token as messages show it. -/
def TokenKind.render : TokenKind → String
  | word text => "Ident(" ++ quoteText text ++ ")"
  | string value => "String(" ++ quoteText value ++ ")"
  | char value => "Char(" ++ quoteSingle value ++ ")"
  | integer value => "Integer(" ++ toString value ++ ")"
  | real text => "Real(" ++ quoteText text ++ ")"
  | punct mark => "Punct(" ++ quoteText mark.text ++ ")"
  | endOfText => "Eof"

/-- A token with its range and the range of the `///` comments between it and the token before. -/
structure Token where
  kind : TokenKind
  range : OffsetRange
  doc : Option OffsetRange
deriving DecidableEq, Repr

/-! ## Errors -/

/-- What a parser looks for. -/
inductive Expected where
  | mark (p : Punct)
  | identifier
  | typeDeclaration
  | baseOrThis
  | accessor
  | type
  | expression
deriving DecidableEq, Repr

/-- What a parser looks for, as messages say it. -/
def Expected.render : Expected → String
  | mark p => "expected `" ++ p.text ++ "`"
  | identifier => "expected identifier"
  | typeDeclaration => "expected type declaration"
  | baseOrThis => "expected `base` or `this`"
  | accessor => "expected accessor"
  | type => "expected type"
  | expression => "expected expression"

/-- Why a text cannot be read. -/
inductive SyntaxCause where
  | unterminatedString
  | newlineInString
  | unterminatedChar
  | unterminatedComment
  | integerOutOfRange
  | unexpectedChar (c : Char)
  | unexpectedToken (expected : Expected) (found : TokenKind)
  /-- The nesting is deeper than the bound that the parser was given. -/
  | tooDeep
deriving DecidableEq, Repr

/-- The message of a cause. -/
def SyntaxCause.render : SyntaxCause → String
  | unterminatedString => "unterminated string"
  | newlineInString => "newline in string"
  | unterminatedChar => "unterminated char"
  | unterminatedComment => "unterminated block comment"
  | integerOutOfRange => "integer literal out of range"
  | unexpectedChar c => "unexpected character " ++ quoteSingle c
  | unexpectedToken expected found => expected.render ++ ", found " ++ found.render
  | tooDeep => "nesting too deep"

/-- An error in a source text and the byte offset it is reported at. -/
structure SyntaxError where
  cause : SyntaxCause
  offset : Nat
deriving DecidableEq, Repr

/-- The message of an error without its place. -/
def SyntaxError.message (e : SyntaxError) : String := e.cause.render

/-- The message of an error with its place. -/
def SyntaxError.render (e : SyntaxError) : String :=
  e.message ++ " at offset " ++ toString e.offset

end PropertyLint
