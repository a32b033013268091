import Blueprint.Text.Unicode

/-! The widths of characters on a screen of equal cells. -/

namespace Blueprint.Text

/-- Characters that separate words. -/
def isSpace (c : Char) : Bool :=
  let n := c.toNat
  (0x09 ≤ n && n ≤ 0x0d) || n == 0x20 || n == 0x85 || n == 0xa0 || n == 0x1680 ||
    (0x2000 ≤ n && n ≤ 0x200a) || n == 0x2028 || n == 0x2029 || n == 0x202f || n == 0x205f ||
    n == 0x3000

/-- Characters that take no cell: those that are not shown, those that belong to the one before or
after them, and a few signs that are drawn over others. -/
def isZeroWidth (c : Char) : Bool :=
  inRanges defaultIgnorable c || inRanges graphemeExtend c || inRanges prepending c ||
    inRanges conjoiningJamo c ||
    [0x605, 0x70f, 0x890, 0x891, 0x8e2, 0xcc0, 0xcc7, 0xcc8, 0xcca, 0xccb, 0x1b3b, 0x1b3d, 0x1b43,
      0xa8fa].contains c.toNat

/-- How many cells a character takes. Of four letters the width is not what their properties say. -/
def width (c : Char) : Nat :=
  let n := c.toNat
  if n < 0x20 || (0x7f ≤ n && n < 0xa0) then 0
  else if n == 0x2d7f then 1
  else if n == 0x115f || n == 0x17a4 then 2
  else if n == 0x17d8 then 3
  else if isZeroWidth c then 0
  else if inRanges wide c then 2
  else 1

/-- A character with its byte offset in its line and the number of cells it takes there. -/
structure Cell where
  offset : Nat
  width : Nat
  char : Char

/-- The number of columns between tab stops. -/
def tabWidth : Nat := 4

/-- The cells of a line whose first character has byte offset `offset` and stands in `column`. A tab
reaches to the next tab stop. -/
def cellsFrom (offset column : Nat) : List Char → List Cell
  | [] => []
  | c :: cs =>
    let w := if c = '\t' then tabWidth - column % tabWidth else width c
    ⟨offset, w, c⟩ :: cellsFrom (offset + c.utf8Size) (column + w) cs

def cells (line : List Char) : List Cell := cellsFrom 0 0 line

/-- A line as it is shown, with blanks for tabs. -/
def shown (line : List Char) : List Char :=
  (cells line).flatMap fun c => if c.char = '\t' then List.replicate c.width ' ' else [c.char]

end Blueprint.Text
