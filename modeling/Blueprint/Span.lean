import Blueprint.Text.Bytes

/-! Places in a text. A `Position` is one place, counted in bytes, lines and columns at once; a
`Span` is a byte range that remembers the line and column of its start. -/

namespace Blueprint

/-- A place in a text: the number of bytes before it, and its line and column, both counted from
one. A column counts characters. -/
structure Position where
  offset : Nat
  line : Nat
  column : Nat
deriving DecidableEq, Repr

namespace Position

def first : Position := ⟨0, 1, 1⟩

/-- The place after one more character. Only a newline starts a new line. -/
def next (p : Position) (c : Char) : Position :=
  if c = '\n' then ⟨p.offset + c.utf8Size, p.line + 1, 1⟩
  else ⟨p.offset + c.utf8Size, p.line, p.column + 1⟩

def after (p : Position) (cs : List Char) : Position :=
  cs.foldl next p

@[simp] theorem after_nil (p : Position) : p.after [] = p := rfl

@[simp] theorem after_cons (p : Position) (c : Char) (cs : List Char) :
    p.after (c :: cs) = (p.next c).after cs := rfl

theorem after_append (p : Position) (as bs : List Char) :
    p.after (as ++ bs) = (p.after as).after bs := List.foldl_append

@[simp] theorem offset_next (p : Position) (c : Char) :
    (p.next c).offset = p.offset + c.utf8Size := by
  unfold next; split <;> rfl

@[simp] theorem offset_after (p : Position) (cs : List Char) :
    (p.after cs).offset = p.offset + Text.byteLength cs := by
  induction cs generalizing p with
  | nil => simp
  | cons c cs ih => simp [ih, Nat.add_assoc]

end Position

/-- A byte range of a text, with the line and column of its start. -/
structure Span where
  start : Nat
  stop : Nat
  line : Nat
  column : Nat
deriving DecidableEq, Repr

namespace Span

/-- The range of the characters `cs` that stand at `p`. -/
def ofText (p : Position) (cs : List Char) : Span :=
  ⟨p.offset, p.offset + Text.byteLength cs, p.line, p.column⟩

/-- The empty range at the start of `s`. -/
def startOf (s : Span) : Span := ⟨s.start, s.start, s.line, s.column⟩

def length (s : Span) : Nat := s.stop - s.start

def isEmpty (s : Span) : Bool := s.start == s.stop

def contains (s : Span) (offset : Nat) : Bool := s.start ≤ offset && offset < s.stop

/-- The smallest range over both. Line and column come from the one that starts first, and from
`s` when both start together. -/
def merge (s t : Span) : Span :=
  ⟨min s.start t.start, max s.stop t.stop,
    if t.start < s.start then t.line else s.line,
    if t.start < s.start then t.column else s.column⟩

/-- The part of `source` in the range. -/
def slice (s : Span) (source : List Char) : List Char := Text.slice source s.start s.stop

end Span

end Blueprint
