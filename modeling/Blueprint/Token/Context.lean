import Blueprint.Token
import Blueprint.Token.Lexeme

/-! The surroundings that decide what a word is. A word's kind depends on the significant lexemes
on both sides of it and on the innermost open bracket. -/

namespace Blueprint

inductive Bracket where
  | brace
  | square
deriving DecidableEq, Repr

/-- The brackets that are open, the innermost first. -/
abbrev Nesting := List Bracket

/-- A closing bracket closes the innermost open bracket of its kind, together with everything
opened inside it, and is ignored when there is none. -/
def Nesting.close (n : Nesting) (b : Bracket) : Nesting :=
  if b ∈ n then (n.dropWhile (· ≠ b)).tail else n

def Nesting.after (n : Nesting) : Shape → Nesting
  | .openBrace => .brace :: n
  | .openBracket => .square :: n
  | .closeBrace => n.close .brace
  | .closeBracket => n.close .square
  | _ => n

/-- The kind of a word, by the significant shapes before and after it and the nesting. -/
def wordKind (previous next : Option Shape) (nesting : Nesting) : TokenKind :=
  if next = some .openBrace then .blueprintTypeName
  else if nesting.head? = some .square then .variableName
  else if next.any Shape.assigns then
    if nesting.isEmpty then .variableName else .fieldName
  else if previous.any fun s => s.assigns || s == .plus then .variableValueRef
  else if nesting.isEmpty then .variableName else .fieldName

/-- What stands before a lexeme: the last significant shape and the open brackets. -/
structure Context where
  previous : Option Shape
  nesting : Nesting
deriving DecidableEq, Repr

namespace Context

def empty : Context := ⟨none, []⟩

def after (ctx : Context) (shape : Shape) : Context :=
  ⟨if shape.isTrivia then ctx.previous else some shape, Nesting.after ctx.nesting shape⟩

/-- The shape of the first significant lexeme. -/
def nextSignificant (ls : List Lexeme) : Option Shape :=
  (ls.find? (!·.shape.isTrivia)).map Lexeme.shape

/-- The kind of the token that `l` becomes, when `rest` stands after it. -/
def kindOf (ctx : Context) (l : Lexeme) (rest : List Lexeme) : TokenKind :=
  match l.shape with
  | .whitespace => .whitespace
  | .comment => .comment
  | .bool => .bool
  | .word => wordKind ctx.previous (nextSignificant rest) ctx.nesting
  | .number => .number
  | .quoted =>
    if ctx.nesting.head? = some .square ∧ l.chars.take 2 = ['"', ':'] then .link else .string
  | .raw => .string
  | .unterminated => .error
  | .plusEquals => .plusEquals
  | .plus => .plus
  | .equals => .equals
  | .colon => .equals
  | .comma => .separator
  | .openBrace => .objectStart
  | .closeBrace => .objectEnd
  | .openBracket => .arrayStart
  | .closeBracket => .arrayEnd
  | .stray => .error

end Context

end Blueprint
