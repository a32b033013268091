import Blueprint.SyntaxError
import Blueprint.Json
import Blueprint.Text.Line

/-! Diagnostics: messages about places in source files, and their JSON form. -/

namespace Blueprint

inductive Severity where
  | error
  | warning
  | note
  | help
  | bug
deriving DecidableEq, Repr

namespace Severity

def name : Severity → String
  | .error => "error"
  | .warning => "warning"
  | .note => "note"
  | .help => "help"
  | .bug => "bug"

def all : List Severity := [.error, .warning, .note, .help, .bug]

def ofName? (name : String) : Option Severity := all.find? (·.name == name)

end Severity

/-- A file that diagnostics point into. -/
structure SourceFile where
  path : String
  source : List Char

/-- A byte range of a file, and what is said about it. -/
structure Label where
  file : Nat
  start : Nat
  stop : Nat
  message : String
deriving DecidableEq, Repr

/-- A message with the places that it is about. -/
structure Diagnostic where
  severity : Severity
  message : String
  code : Option String := none
  labels : List Label := []
  notes : List String := []
deriving DecidableEq, Repr

namespace Problem

/-- What is said at the place of the problem. -/
def label : Problem → String
  | .unexpectedToken _ found => "unexpected " ++ found.describe
  | .unexpectedEof _ => "file ends here"
  | .missingValue => "value missing"
  | .unexpectedCharacter _ => "not valid here"
  | .unterminatedString => "string starts here"
  | .nestingTooDeep _ => "skipped"
  | .parserStuck _ => "parsing stopped here"

/-- How the problem can be mended, when there is a plain way. -/
def help? : Problem → Option String
  | .unexpectedEof expected =>
    if expected.contains .objectEnd then some "add the missing '\x7d'"
    else if expected.contains .arrayEnd then some "add the missing ']'"
    else none
  | .unexpectedToken expected _ =>
    if expected.contains .separator then some "entries are separated by ','" else none
  | .unterminatedString => some "close the string with '\"' on the same line"
  | _ => none

end Problem

namespace Diagnostic

def withLabel (d : Diagnostic) (file start stop : Nat) (message : String) : Diagnostic :=
  { d with labels := d.labels ++ [⟨file, start, stop, message⟩] }

def withHelp (d : Diagnostic) (text : String) : Diagnostic :=
  { d with notes := d.notes ++ ["help: " ++ text] }

/-- The diagnostic for an error in a file. -/
def ofError (e : SyntaxError) (file : Nat) : Diagnostic :=
  let d : Diagnostic := ⟨.error, e.message, some e.problem.code, [], []⟩
  let d := d.withLabel file e.span.start e.span.stop e.problem.label
  match e.problem.help? with
  | some text => d.withHelp text
  | none => d

end Diagnostic

/-- The place of a label in lines and columns. -/
structure Place where
  path : String
  startLine : Nat
  startColumn : Nat
  stopLine : Nat
  stopColumn : Nat
  message : String
deriving DecidableEq, Repr

namespace Label

/-- The place that a label points to; none when its file is unknown. -/
def place? (files : List SourceFile) (l : Label) : Option Place :=
  files[l.file]?.map fun f =>
    let table := Text.lineTable f.source
    let first := Text.lineAt l.start table
    let last := Text.lineAt l.stop table
    ⟨f.path, first.number, first.columnOf l.start, last.number, last.columnOf l.stop, l.message⟩

end Label

namespace Place

def toJson (p : Place) : Json :=
  .object [("file", .string p.path), ("start_line", .ofNat p.startLine),
    ("start_column", .ofNat p.startColumn), ("end_line", .ofNat p.stopLine),
    ("end_column", .ofNat p.stopColumn), ("message", .string p.message),
    ("style", .string "primary")]

end Place

namespace Diagnostic

/-- The places of the labels, without those in unknown files. -/
def places (d : Diagnostic) (files : List SourceFile) : List Place :=
  d.labels.filterMap (Label.place? files)

def toJson (d : Diagnostic) (files : List SourceFile) : Json :=
  .object [("code", .ofText? d.code), ("severity", .string d.severity.name),
    ("message", .string d.message), ("labels", .array ((d.places files).map Place.toJson)),
    ("notes", .array (d.notes.map .string))]

end Diagnostic

end Blueprint
