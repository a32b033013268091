/-! JSON values and their text. Objects keep the order of their members. -/

namespace Blueprint

/-- A JSON value. A number is `mantissa * 10 ^ (-exponent)`. -/
inductive Json where
  | null
  | bool (value : Bool)
  | number (mantissa : Int) (exponent : Nat)
  | string (value : String)
  | array (values : List Json)
  | object (members : List (String × Json))
deriving Inhabited

namespace Json

def ofNat (n : Nat) : Json := .number n 0

/-- A text, or null when there is none. -/
def ofText? : Option String → Json
  | none => .null
  | some s => .string s

/-- The member of an object with a given key; a later one counts before an earlier one. -/
def member? (key : String) : Json → Option Json
  | .object members => (members.reverse.find? (·.1 == key)).map (·.2)
  | _ => none

/-- Two hexadecimal digits in lower case. -/
def hexByte (n : Nat) : List Char := [Nat.digitChar (n / 16), Nat.digitChar (n % 16)]

/-- How a character is written inside a string. -/
def escape (c : Char) : List Char :=
  match c with
  | '"' => ['\\', '"']
  | '\\' => ['\\', '\\']
  | '\x08' => ['\\', 'b']
  | '\t' => ['\\', 't']
  | '\n' => ['\\', 'n']
  | '\x0c' => ['\\', 'f']
  | '\r' => ['\\', 'r']
  | c => if c.toNat < 0x20 then ['\\', 'u', '0', '0'] ++ hexByte c.toNat else [c]

def quote (s : String) : String := String.ofList ('"' :: (s.toList.flatMap escape ++ ['"']))

/-- A number with `exponent` decimal places. -/
def numberText (mantissa : Int) (exponent : Nat) : String :=
  let digits := toString mantissa.natAbs
  let sign := if mantissa < 0 then "-" else ""
  if exponent = 0 then sign ++ digits
  else
    let padded := String.ofList (List.replicate (exponent + 1 - digits.length) '0') ++ digits
    sign ++ String.ofList (padded.toList.take (padded.length - exponent)) ++ "." ++
      String.ofList (padded.toList.drop (padded.length - exponent))

/-- A new line, indented by two blanks for each level. -/
def newline (level : Nat) : String := "\n" ++ String.ofList (List.replicate (2 * level) ' ')

mutual
/-- The text of a value that stands at nesting `level`, one entry to a line. -/
def prettyAt (level : Nat) : Json → String
  | .null => "null"
  | .bool b => if b then "true" else "false"
  | .number m e => numberText m e
  | .string s => quote s
  | .array [] => "[]"
  | .array (v :: vs) =>
    "[" ++ newline (level + 1) ++ prettyAt (level + 1) v ++ prettyRest (level + 1) vs ++
      newline level ++ "]"
  | .object [] => "\x7b\x7d"
  | .object ((k, v) :: ms) =>
    "\x7b" ++ newline (level + 1) ++ quote k ++ ": " ++ prettyAt (level + 1) v ++
      prettyMembers (level + 1) ms ++ newline level ++ "\x7d"

/-- The entries of an array after the first. -/
def prettyRest (level : Nat) : List Json → String
  | [] => ""
  | v :: vs => "," ++ newline level ++ prettyAt level v ++ prettyRest level vs

/-- The members of an object after the first. -/
def prettyMembers (level : Nat) : List (String × Json) → String
  | [] => ""
  | (k, v) :: ms =>
    "," ++ newline level ++ quote k ++ ": " ++ prettyAt level v ++ prettyMembers level ms
end

/-- The text of a value, one entry to a line. -/
def pretty (v : Json) : String := prettyAt 0 v

end Json

end Blueprint
