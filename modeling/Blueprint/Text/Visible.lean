import Blueprint.Text.Unicode

/-! Text made visible on one line: between double quotes, with quotes, backslashes and all that has no
visible form of its own escaped. -/

namespace Blueprint.Text.Visible

/-- The hexadecimal digits of a number, in lower case and without leading zeros. -/
def hex (n : Nat) : List Char := Nat.toDigits 16 n

/-- Whether a character is shown as it is. A mark is not, as it would change the character before
it. -/
def isPrintable (c : Char) : Bool :=
  0x20 ≤ c.toNat && !inRanges unprintable c && !inRanges graphemeExtend c

def escape (c : Char) : List Char :=
  match c with
  | '"' => ['\\', '"']
  | '\\' => ['\\', '\\']
  | '\t' => ['\\', 't']
  | '\r' => ['\\', 'r']
  | '\n' => ['\\', 'n']
  | '\x00' => ['\\', '0']
  | c => if isPrintable c then [c] else ['\\', 'u', '{'] ++ hex c.toNat ++ ['}']

def quote (cs : List Char) : String := String.ofList ('"' :: (cs.flatMap escape ++ ['"']))

end Blueprint.Text.Visible
