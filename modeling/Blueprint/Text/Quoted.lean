/-! String literals. Between double quotes a backslash gives the next character a meaning; between
backquotes every character stands for itself. `decode` reads the text of a literal and `encode`
writes one. -/

namespace Blueprint.Text.Quoted

/-- The character that a backslash and `c` stand for. -/
def escape (c : Char) : Char :=
  match c with
  | 'n' => '\n'
  | 'r' => '\r'
  | 't' => '\t'
  | '0' => '\x00'
  | c => c

/-- The body of a double-quoted literal with its escapes resolved. A backslash at the very end
stands for nothing. -/
def unescape : List Char → List Char
  | [] => []
  | ['\\'] => []
  | '\\' :: c :: cs => escape c :: unescape cs
  | c :: cs => c :: unescape cs

/-- The list without its last entry when that is `c`. -/
def dropLastIf (c : Char) (cs : List Char) : List Char :=
  if cs.getLast? = some c then cs.dropLast else cs

/-- The value of a literal. A backquoted one is taken as it stands. A delimiter that is missing is
not required. -/
def decode : List Char → List Char
  | '\x60' :: cs => dropLastIf '\x60' cs
  | '"' :: cs => unescape (dropLastIf '"' cs)
  | cs => unescape (dropLastIf '"' cs)

/-- The body that a double-quoted literal needs for a value. -/
def escaped : List Char → List Char
  | [] => []
  | '\\' :: cs => '\\' :: '\\' :: escaped cs
  | '"' :: cs => '\\' :: '"' :: escaped cs
  | '\n' :: cs => '\\' :: 'n' :: escaped cs
  | c :: cs => c :: escaped cs

/-- The double-quoted literal for a value. -/
def encode (value : List Char) : List Char := '"' :: (escaped value ++ ['"'])

end Blueprint.Text.Quoted

namespace Blueprint

/-- The value of the literal that `text` spells. -/
def unquote (text : String) : String := String.ofList (Text.Quoted.decode text.toList)

end Blueprint
