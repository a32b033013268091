import Blueprint.Span

/-! Tokens: the terminals of a module file. Whitespace and comments are tokens too, so that a
token list keeps the whole text. -/

namespace Blueprint

inductive TokenKind where
  | objectStart
  | objectEnd
  | arrayStart
  | arrayEnd
  | plus
  | plusEquals
  | separator
  | equals
  | comment
  | whitespace
  | number
  | string
  | bool
  | blueprintTypeName
  | variableName
  | variableValueRef
  | link
  | fieldName
  | eof
  | error
deriving DecidableEq, Repr

namespace TokenKind

/-- Whitespace and comments, which the grammar does not look at. -/
def isTrivia (kind : TokenKind) : Bool := kind == .comment || kind == .whitespace

/-- The name of the kind in token lists and tree outlines. -/
def name : TokenKind → String
  | .objectStart => "ObjectStart"
  | .objectEnd => "ObjectEnd"
  | .arrayStart => "ArrayStart"
  | .arrayEnd => "ArrayEnd"
  | .plus => "Plus"
  | .plusEquals => "PlusEquals"
  | .separator => "Separator"
  | .equals => "Equals"
  | .comment => "Comment"
  | .whitespace => "Whitespace"
  | .number => "Number"
  | .string => "String"
  | .bool => "Bool"
  | .blueprintTypeName => "BlueprintTypeName"
  | .variableName => "VariableName"
  | .variableValueRef => "VariableValueRef"
  | .link => "Link"
  | .fieldName => "FieldName"
  | .eof => "Eof"
  | .error => "Error"

/-- What an error message calls the kind. -/
def describe : TokenKind → String
  | .objectStart => "'\x7b'"
  | .objectEnd => "'\x7d'"
  | .arrayStart => "'['"
  | .arrayEnd => "']'"
  | .plus => "'+'"
  | .plusEquals => "'+='"
  | .separator => "','"
  | .equals => "'='"
  | .comment => "comment"
  | .whitespace => "whitespace"
  | .number => "number"
  | .string => "string"
  | .bool => "boolean"
  | .blueprintTypeName => "module type"
  | .variableName => "variable name"
  | .variableValueRef => "variable reference"
  | .link => "module link"
  | .fieldName => "field name"
  | .eof => "end of file"
  | .error => "invalid token"

/-- Every kind, in the order of the declaration. -/
def all : List TokenKind :=
  [.objectStart, .objectEnd, .arrayStart, .arrayEnd, .plus, .plusEquals, .separator, .equals,
    .comment, .whitespace, .number, .string, .bool, .blueprintTypeName, .variableName,
    .variableValueRef, .link, .fieldName, .eof, .error]

def ofName? (name : String) : Option TokenKind := all.find? (·.name == name)

theorem mem_all (kind : TokenKind) : kind ∈ all := by cases kind <;> decide

end TokenKind

/-- A token: its place in the token list, its kind, where it stands and its characters. -/
structure Token where
  index : Nat
  kind : TokenKind
  span : Span
  chars : List Char
deriving DecidableEq, Repr

namespace Token

def text (t : Token) : String := String.ofList t.chars

def isTrivia (t : Token) : Bool := t.kind.isTrivia

end Token

end Blueprint
