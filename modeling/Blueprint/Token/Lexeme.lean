import Blueprint.Text.Bytes

/-! Lexemes: the runs of characters that a text splits into, by their looks alone. `scan` cuts the
longest run off the front until nothing is left; the runs join to the text (`flatMap_scan`) and
none is empty (`chars_ne_nil_of_mem_scan`). A character that starts no run stands alone. -/

namespace Blueprint

/-- What a run of characters looks like. -/
inductive Shape where
  | whitespace
  | comment
  | bool
  | word
  | number
  /-- A double-quoted literal with its closing quote. -/
  | quoted
  /-- A backquoted literal with its closing backquote. -/
  | raw
  /-- A literal without its closing delimiter. -/
  | unterminated
  | plusEquals
  | plus
  | equals
  | colon
  | comma
  | openBrace
  | closeBrace
  | openBracket
  | closeBracket
  /-- A character that starts nothing. -/
  | stray
deriving DecidableEq, Repr

namespace Shape

def isTrivia (shape : Shape) : Bool := shape == .whitespace || shape == .comment

/-- `=`, `+=` and `:`, which stand between a name and its value. -/
def assigns (shape : Shape) : Bool := shape == .equals || shape == .plusEquals || shape == .colon

end Shape

structure Lexeme where
  shape : Shape
  chars : List Char
deriving DecidableEq, Repr

namespace Lexeme

def isBlank (c : Char) : Bool := c == ' ' || c == '\t' || c == '\r' || c == '\n' || c == '\x0c'

def isWordStart (c : Char) : Bool := c.isAlpha || c == '_'

def isWordPart (c : Char) : Bool := c.isAlphanum || c == '_'

/-- How many characters at the front of `cs` satisfy `p`. -/
def run (p : Char → Bool) (cs : List Char) : Nat := (cs.takeWhile p).length

/-- How far a block comment reaches after its opening: through the first `*/`, or to the end. -/
def commentLength : List Char → Nat
  | [] => 0
  | '*' :: '/' :: _ => 2
  | _ :: cs => commentLength cs + 1

/-- A length, and whether a closing delimiter was found at the end of it. -/
structure Extent where
  closed : Bool
  length : Nat

def Extent.add (k : Nat) (e : Extent) : Extent := ⟨e.closed, e.length + k⟩

/-- How far a double-quoted literal reaches after its opening quote. A backslash takes the next
character with it. A newline ends the literal in front of it, and a backslash before a newline is
still part of the literal. -/
def quotedExtent : List Char → Extent
  | [] => ⟨false, 0⟩
  | '"' :: _ => ⟨true, 1⟩
  | '\n' :: _ => ⟨false, 0⟩
  | '\\' :: '\n' :: _ => ⟨false, 1⟩
  | '\\' :: _ :: cs => (quotedExtent cs).add 2
  | _ :: cs => (quotedExtent cs).add 1

/-- How far a backquoted literal reaches after its opening backquote. -/
def rawExtent : List Char → Extent
  | [] => ⟨false, 0⟩
  | '\x60' :: _ => ⟨true, 1⟩
  | _ :: cs => (rawExtent cs).add 1

/-- The shape of the longest run that starts with `c` and goes on in `cs`, and how many characters
of `cs` it takes. -/
def longest (c : Char) (cs : List Char) : Shape × Nat :=
  if isBlank c then (.whitespace, run isBlank cs)
  else if isWordStart c then
    let word := c :: cs.takeWhile isWordPart
    (if word = "true".toList ∨ word = "false".toList then .bool else .word, run isWordPart cs)
  else if c.isDigit then (.number, run Char.isDigit cs)
  else match c with
    | '-' => if cs.head?.any Char.isDigit then (.number, run Char.isDigit cs) else (.stray, 0)
    | '/' =>
      match cs with
      | '/' :: _ => (.comment, run (· != '\n') cs)
      | '*' :: rest => (.comment, commentLength rest + 1)
      | _ => (.stray, 0)
    | '"' => let e := quotedExtent cs; (if e.closed then .quoted else .unterminated, e.length)
    | '\x60' => let e := rawExtent cs; (if e.closed then .raw else .unterminated, e.length)
    | '+' => if cs.head? = some '=' then (.plusEquals, 1) else (.plus, 0)
    | '=' => (.equals, 0)
    | ':' => (.colon, 0)
    | ',' => (.comma, 0)
    | '{' => (.openBrace, 0)
    | '}' => (.closeBrace, 0)
    | '[' => (.openBracket, 0)
    | ']' => (.closeBracket, 0)
    | _ => (.stray, 0)

def scan : List Char → List Lexeme
  | [] => []
  | c :: cs =>
    let (shape, n) := longest c cs
    ⟨shape, c :: cs.take n⟩ :: scan (cs.drop n)
termination_by cs => cs.length
decreasing_by rw [List.length_drop, List.length_cons]; omega

@[simp] theorem scan_nil : scan [] = [] := by simp [scan]

theorem scan_cons (c : Char) (cs : List Char) :
    scan (c :: cs) =
      ⟨(longest c cs).1, c :: cs.take (longest c cs).2⟩ :: scan (cs.drop (longest c cs).2) := by
  rw [scan]

/-- The lexemes join to the text. -/
theorem flatMap_scan (cs : List Char) : (scan cs).flatMap chars = cs := by
  fun_induction scan cs with
  | case1 => rfl
  | case2 c cs shape n _ ih => simp [ih]

theorem chars_ne_nil_of_mem_scan {cs : List Char} {l : Lexeme} (h : l ∈ scan cs) :
    l.chars ≠ [] := by
  fun_induction scan cs with
  | case1 => simp at h
  | case2 c cs shape n _ ih =>
    rcases List.mem_cons.1 h with rfl | h
    · simp
    · exact ih h

end Lexeme

end Blueprint
