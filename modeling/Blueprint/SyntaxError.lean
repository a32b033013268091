import Blueprint.Token

/-! What can be wrong with a file, and where. Errors are recorded in order; one that starts where
the last recorded one starts is dropped. -/

namespace Blueprint

/-- What is wrong at a place of a file. -/
inductive Problem where
  | unexpectedToken (expected : List TokenKind) (found : TokenKind)
  | unexpectedEof (expected : List TokenKind)
  /-- A name and an operator without a value. -/
  | missingValue
  /-- A character that starts no token. -/
  | unexpectedCharacter (char : Char)
  | unterminatedString
  | nestingTooDeep (limit : Nat)
  /-- A loop of the grammar took too many rounds. -/
  | parserStuck (rule : String)
deriving DecidableEq, Repr

namespace Problem

def alternatives : List TokenKind → String
  | [] => "something else"
  | [kind] => kind.describe
  | kinds =>
    String.intercalate ", " (kinds.dropLast.map TokenKind.describe) ++ " or " ++
      (kinds.getLast?.map TokenKind.describe).getD ""

def message : Problem → String
  | .unexpectedToken expected found =>
    "expected " ++ alternatives expected ++ ", found " ++ found.describe
  | .unexpectedEof expected => "unexpected end of file, expected " ++ alternatives expected
  | .missingValue => "expected a value"
  | .unexpectedCharacter c => "unexpected character '" ++ c.toString ++ "'"
  | .unterminatedString => "unterminated string literal"
  | .nestingTooDeep limit => "nesting too deep (limit is " ++ toString limit ++ ")"
  | .parserStuck rule => "parser stuck in " ++ rule

/-- The stable code of the problem. -/
def code : Problem → String
  | .unexpectedToken .. => "B0001"
  | .unexpectedEof _ => "B0002"
  | .missingValue => "B0003"
  | .unexpectedCharacter _ => "B0004"
  | .unterminatedString => "B0005"
  | .nestingTooDeep _ => "B0006"
  | .parserStuck _ => "B0007"

/-- A token that was not expected; the end of the file is a problem of its own. -/
def unexpected (expected : List TokenKind) (found : TokenKind) : Problem :=
  if found = .eof then .unexpectedEof expected else .unexpectedToken expected found

/-- The problem with a token that has no meaning: a literal without its closing delimiter, or else
a character that starts nothing. -/
def lexical (chars : List Char) : Problem :=
  match chars with
  | '"' :: _ => .unterminatedString
  | '\x60' :: _ => .unterminatedString
  | c :: _ => .unexpectedCharacter c
  | [] => .unexpectedCharacter '\x00'

end Problem

structure SyntaxError where
  problem : Problem
  span : Span
deriving DecidableEq, Repr

namespace SyntaxError

def message (e : SyntaxError) : String := e.problem.message

/-- The message after its line and column. -/
def describe (e : SyntaxError) : String :=
  toString e.span.line ++ ":" ++ toString e.span.column ++ ": " ++ e.message

/-- The errors that stay on record out of all that were raised, both lists with the last one first.
An error is dropped when it starts where the last one on record starts. -/
def recorded : List SyntaxError → List SyntaxError
  | [] => []
  | e :: es =>
    let kept := recorded es
    if kept.head?.any (·.span.start == e.span.start) then kept else e :: kept

end SyntaxError

end Blueprint
