import Blueprint.Text.Bytes

/-! The lines of a text, and the line and column of a byte offset. -/

namespace Blueprint.Text

/-- The lines of a text, each with the newline that ends it. The last line has none, and is empty
after a final newline. -/
def lines : List Char → List (List Char)
  | [] => [[]]
  | '\n' :: cs => ['\n'] :: lines cs
  | c :: cs =>
    match lines cs with
    | [] => [[c]]
    | l :: ls => (c :: l) :: ls

/-- A line of a text: its number, counted from one, the byte offset of its start, and its
characters. -/
structure Line where
  number : Nat
  start : Nat
  chars : List Char
deriving DecidableEq, Repr

/-- Lines with numbers and offsets, when the first has number `number` and starts at `start`. -/
def numbered (number start : Nat) : List (List Char) → List Line
  | [] => []
  | l :: ls => ⟨number, start, l⟩ :: numbered (number + 1) (start + byteLength l) ls

/-- The lines of a text with their numbers and offsets. -/
def lineTable (cs : List Char) : List Line := numbered 1 0 (lines cs)

/-- The last of several lines that starts at or before `offset`. -/
def lineAt (offset : Nat) : List Line → Line
  | [] => ⟨1, 0, []⟩
  | [l] => l
  | l :: m :: ls => if offset < m.start then l else lineAt offset (m :: ls)

/-- How many characters end within the first `n` bytes. -/
def countWithin (n : Nat) : List Char → Nat
  | [] => 0
  | c :: cs => if c.utf8Size ≤ n then countWithin (n - c.utf8Size) cs + 1 else 0

/-- The column of an offset in a line, counted from one in characters. -/
def Line.columnOf (l : Line) (offset : Nat) : Nat := 1 + countWithin (offset - l.start) l.chars

end Blueprint.Text
