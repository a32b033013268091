import Blueprint.Diagnostic
import Blueprint.Text.Width

/-! Diagnostics as text: the message, then the source lines that a label covers with the label drawn
along them, then the notes. -/

namespace Blueprint.Diagnostic.Snippet

open Text

/-- How many lines after the first and before the last are shown of a long label. -/
def linesAfterFirst : Nat := 3

def linesBeforeLast : Nat := 1

/-- A line without the newline, carriage return and NUL characters at its end. -/
def trimmed (line : List Char) : List Char :=
  (line.reverse.dropWhile fun c => c == '\n' || c == '\r' || c == '\x00').reverse

/-- A number in a column of `size` characters, at its right edge. -/
def alignRight (size n : Nat) : String :=
  let digits := toString n
  String.ofList (List.replicate (size - digits.length) ' ') ++ digits

def fill (n : Nat) (c : Char) : String := String.ofList (List.replicate n c)

/-- The row of carets under a line: under what lies between the offsets `start` and `stop`, or under
one byte when nothing does. One more cell stands after the end of the line. -/
def carets (line : List Char) (start stop : Nat) : String :=
  let stop := max stop (start + 1)
  let cells := cells line ++ [⟨byteLength line, 1, ' '⟩]
  String.join (cells.map fun c =>
    if start < c.offset + c.char.utf8Size ∧ c.offset < stop then fill c.width '^'
    else if c.offset < stop then fill c.width ' '
    else "")

/-- A rule across the cells of a line that start before `stop`. -/
def across (line : List Char) (stop : Nat) : String :=
  String.join (((cells line).takeWhile (·.offset < stop)).map fun c => fill c.width '─')

/-- The number of bytes of the white space that a line starts with. -/
def indent (line : List Char) : Nat := byteLength (line.takeWhile isSpace)

/-- Whether line `n` is shown of a label over the lines from `first` to `last`. Where one line alone
would be left out, it is shown. -/
def isShown (first last n : Nat) : Bool :=
  n ≤ first + linesAfterFirst || last ≤ n + linesBeforeLast ||
    last - linesBeforeLast == first + linesAfterFirst + 2

/-- The lines between the first and the last one of a label. The first line that is left out becomes
a row that stands for all of them. -/
def middleRows (gutter : String) (size first last : Nat) (middle : List Line) : List String :=
  middle.filterMap fun l =>
    if isShown first last l.number then
      some (alignRight size l.number ++ " │ │ " ++ String.ofList (shown (trimmed l.chars)))
    else if l.number = first + linesAfterFirst + 1 then some (gutter ++ "· │")
    else none

/-- The rows for a label on one line. -/
def singleRows (gutter : String) (size : Nat) (line : Line) (label : Label) : List String :=
  let text := trimmed line.chars
  [alignRight size line.number ++ " │ " ++ String.ofList (shown text),
    gutter ++ "│ " ++ carets text (label.start - line.start) (label.stop - line.start) ++ " " ++
      label.message]

/-- The rows for a label over several lines. A label that starts with its first line opens beside
it, and otherwise below it. -/
def multiRows (gutter : String) (size : Nat) (first last : Line) (middle : List Line)
    (label : Label) : List String :=
  let top := trimmed first.chars
  let bottom := trimmed last.chars
  let start := label.start - first.start
  let stop := label.stop - last.start
  let opening :=
    if start ≤ indent top then
      [alignRight size first.number ++ " │ ╭ " ++ String.ofList (shown top)]
    else
      [alignRight size first.number ++ " │   " ++ String.ofList (shown top),
        gutter ++ "│ ╭" ++ across top (start + 1) ++ "^"]
  opening ++ middleRows gutter size first.number last.number middle ++
    [alignRight size last.number ++ " │ │ " ++ String.ofList (shown bottom),
      gutter ++ "│ ╰" ++ across bottom stop ++ "^ " ++ label.message]

/-- The rows for a note. The lines of a note after the first are set under it. -/
def noteRows (gutter : String) (note : String) : List String :=
  match note.splitOn "\n" with
  | [] => []
  | l :: ls => (gutter ++ "= " ++ l) :: ls.map fun m => gutter ++ "  " ++ m

/-- The first row. -/
def header (d : Diagnostic) : String :=
  d.severity.name ++ (d.code.map fun c => "[" ++ c ++ "]").getD "" ++ ": " ++ d.message

/-- The rows for a label and the notes of a diagnostic. -/
def body (file : SourceFile) (label : Label) (notes : List String) : List String :=
  let table := lineTable file.source
  let first := lineAt label.start table
  let last := lineAt label.stop table
  let size := (toString last.number).length
  let gutter := fill (size + 1) ' '
  let single := first.number == last.number
  let margin := gutter ++ "│" ++ if single then "" else "  "
  let origin := gutter ++ "┌─ " ++ file.path ++ ":" ++ toString first.number ++ ":" ++
    toString (first.columnOf label.start)
  let rows :=
    if single then singleRows gutter size first label
    else
      let middle := table.filter fun l => first.number < l.number && l.number < last.number
      multiRows gutter size first last middle label
  [origin, margin] ++ rows ++ (if notes.isEmpty then [] else [margin]) ++
    notes.flatMap (noteRows gutter)

end Snippet

/-- The diagnostic as text, with its first label drawn into the source. A row with nothing on it
comes last. -/
def render (d : Diagnostic) (files : List SourceFile) : String :=
  let rows :=
    match d.labels.head?.bind fun l => files[l.file]?.map fun f => (f, l) with
    | some (f, l) => Snippet.body f l d.notes
    | none => d.notes.flatMap (Snippet.noteRows " ")
  String.join ((Snippet.header d :: rows ++ [""]).map (· ++ "\n"))

end Blueprint.Diagnostic
