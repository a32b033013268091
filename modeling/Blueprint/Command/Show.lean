import Blueprint.Command.Result
import Blueprint.Grammar.File
import Blueprint.Tree.Outline

/-! Showing how a file is read: its tokens and its tree. -/

namespace Blueprint

def Span.toJson (s : Span) : Json :=
  .object [("start", .ofNat s.start), ("end", .ofNat s.stop), ("line", .ofNat s.line),
    ("column", .ofNat s.column)]

def Token.toJson (t : Token) : Json :=
  .object [("kind", .string t.kind.name), ("span", t.span.toJson), ("text", .string t.text)]

/-- A token on one line: its place, its kind and its text, with tabs between them. -/
def Token.row (t : Token) : String :=
  toString t.span.line ++ ":" ++ toString t.span.column ++ "\t" ++ t.kind.name ++ "\t" ++
    Text.Visible.quote t.chars ++ "\n"

/-- An element of an outline; tokens come with their text. -/
def Element.rowJson (depth : Nat) (e : Element) : Json :=
  .object ([("depth", .ofNat depth), ("kind", .string e.kindName), ("start", .ofNat e.span.start),
    ("end", .ofNat e.span.stop)] ++ (e.asToken?.map fun t => ("text", .string t.text)).toList)

/-- The elements of a tree, each before those below it. -/
def Tree.rows (tree : Tree) : List Json :=
  tree.root.toElement.outline.map fun (depth, e) => e.rowJson depth

namespace Show

/-- Reads a file and prints something about its text. -/
def printing (a : Argument) (f : String → String) : CommandResult Unit :=
  match a.readText with
  | .error failure => .fail failure
  | .ok text => .print () [.plain (f text)]

def tokens (a : Argument) (format : Format) : CommandResult Unit :=
  printing a fun text =>
    match format with
    | .pretty => String.join ((tokenize text).map Token.row)
    | .json => (Json.array ((tokenize text).map Token.toJson)).pretty ++ "\n"

def tree (a : Argument) (limits : Limits) (format : Format) : CommandResult Unit :=
  printing a fun text =>
    let tree := (parse text limits).tree
    match format with
    | .pretty => tree.dump
    | .json => (Json.array tree.rows).pretty ++ "\n"

end Show

end Blueprint
