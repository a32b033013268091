import Blueprint.Command.Result
import Blueprint.Grammar.File
import Blueprint.View

/-! Listing the modules of files. -/

namespace Blueprint.Modules

structure Listing where
  file : String
  typeName : String
  name : Option String
  line : Nat
  column : Nat
deriving DecidableEq, Repr

namespace Listing

/-- The listing of a module that has a type. -/
def ofView? (path : String) (v : ModuleView) : Option Listing :=
  v.typeName?.map fun typeName => ⟨path, typeName, v.name?, v.span.line, v.span.column⟩

def toJson (l : Listing) : Json :=
  .object [("file", .string l.file), ("type", .string l.typeName), ("name", .ofText? l.name),
    ("line", .ofNat l.line), ("column", .ofNat l.column)]

/-- The place, the type and the name, with tabs between them. -/
def pieces (l : Listing) : List Piece :=
  [⟨.dim, l.file ++ ":" ++ toString l.line ++ ":" ++ toString l.column⟩, .plain "\t",
    ⟨.info, l.typeName⟩, .plain "\t",
    match l.name with
    | some name => .plain name
    | none => ⟨.dim, "<unnamed>"⟩,
    .newline]

end Listing

/-- The modules of a text, in order. -/
def ofText (path text : String) (limits : Limits) : List Listing :=
  match (parse text limits).tree.file? with
  | some file => file.modules.filterMap (Listing.ofView? path)
  | none => []

/-- The modules of files that are already collected, in order. -/
def ofFiles (limits : Limits) : List Argument → Except Failure (List Listing)
  | [] => .ok []
  | a :: as => do
    let text ← a.readText
    return ofText a.path text limits ++ (← ofFiles limits as)

/-- Lists the modules of the files that arguments stand for. -/
def run (args : List Argument) (limits : Limits) (format : Format) : CommandResult Unit :=
  match Files.collect args >>= ofFiles limits with
  | .error f => .fail f
  | .ok listings =>
    match format with
    | .pretty => .print () (listings.flatMap Listing.pieces)
    | .json => .print () [.plain (Json.array (listings.map Listing.toJson)).pretty, .newline]

end Blueprint.Modules
