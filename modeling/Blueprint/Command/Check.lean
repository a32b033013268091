import Blueprint.Command.Result
import Blueprint.Diagnostic.Snippet
import Blueprint.Grammar.File

/-! Checking files: every error of every file is reported once, and the totals are given. -/

namespace Blueprint.Check

structure Report where
  file : SourceFile
  diagnostics : List Diagnostic

namespace Report

def ofText (path text : String) (limits : Limits) : Report :=
  ⟨⟨path, text.toList⟩, (parse text limits).errors.map (Diagnostic.ofError · 0)⟩

def render (r : Report) : String := String.join (r.diagnostics.map (·.render [r.file]))

def toJson (r : Report) : Json :=
  .object [("file", .string r.file.path),
    ("diagnostics", .array (r.diagnostics.map (·.toJson [r.file])))]

end Report

/-- The numbers of files and errors. -/
structure Summary where
  files : Nat
  errors : Nat
deriving DecidableEq, Repr

namespace Summary

def isClean (s : Summary) : Bool := s.errors == 0

def ofReports (rs : List Report) : Summary :=
  ⟨rs.length, rs.foldl (fun n r => n + r.diagnostics.length) 0⟩

def pieces (s : Summary) : List Piece :=
  [.plain ("Checked " ++ plural s.files "file" ++ ": "),
    if s.isClean then ⟨.success, "no errors found."⟩ else ⟨.error, plural s.errors "error" ++ "."⟩,
    .newline]

end Summary

/-- The reports on files in order, up to the first one that cannot be read. -/
def reports (limits : Limits) : List Argument → List Report × Option Failure
  | [] => ([], none)
  | a :: as =>
    match a.readText with
    | .error f => ([], some f)
    | .ok text =>
      let (rs, f) := reports limits as
      (Report.ofText a.path text limits :: rs, f)

/-- Checks files that are already collected. -/
def checkFiles (files : List Argument) (limits : Limits) (format : Format) :
    CommandResult Summary :=
  let (rs, failure) := reports limits files
  let rendered :=
    match format with
    | .pretty => String.join (rs.map Report.render)
    | .json => ""
  match failure with
  | some f => { answer := .error f, diagnostics := rendered }
  | none =>
    let summary := Summary.ofReports rs
    let out :=
      match format with
      | .pretty => summary.pieces
      | .json =>
        [.plain ((Json.array ((rs.filter (!·.diagnostics.isEmpty)).map Report.toJson)).pretty),
          .newline]
    { answer := .ok summary, out, diagnostics := rendered }

/-- Checks the files that arguments stand for. -/
def run (args : List Argument) (limits : Limits) (format : Format) : CommandResult Summary :=
  match Files.collect args with
  | .error f => .fail f
  | .ok [] => .fail .noFiles
  | .ok files => checkFiles files limits format

end Blueprint.Check
