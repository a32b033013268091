/-! Files and directories, and the module files among them. -/

namespace Blueprint

/-- What stands in a file system under a name. -/
inductive Entry where
  | file (content : ByteArray)
  | directory (entries : List (String × Entry))

inductive ReadFailure where
  | missing
  /-- The path goes on below a file. -/
  | notDirectory
  | isDirectory
  | notText
deriving DecidableEq, Repr

namespace ReadFailure

def message : ReadFailure → String
  | .missing => "No such file or directory (os error 2)"
  | .notDirectory => "Not a directory (os error 20)"
  | .isDirectory => "Is a directory (os error 21)"
  | .notText => "stream did not contain valid UTF-8"

end ReadFailure

inductive Failure where
  | notFound (path : String)
  | noFiles
  | unreadable (path : String) (cause : ReadFailure)
deriving DecidableEq, Repr

namespace Failure

def message : Failure → String
  | .notFound path => "no such file or directory: " ++ path
  | .noFiles => "no .bp files found"
  | .unreadable path _ => "failed to read " ++ path

def cause? : Failure → Option String
  | .unreadable _ cause => some cause.message
  | _ => none

end Failure

namespace Entry

/-- Follows the parts of a path. `above` holds the directories that were passed, the last one
first. -/
def follow (above : List Entry) (e : Entry) : List String → Except ReadFailure Entry
  | [] => .ok e
  | part :: parts =>
    match e with
    | .file _ => .error .notDirectory
    | .directory entries =>
      if part = "" ∨ part = "." then follow above e parts
      else if part = ".." then
        match above with
        | [] => .error .missing
        | d :: ds => follow ds d parts
      else match entries.find? (·.1 == part) with
        | none => .error .missing
        | some (_, next) => follow (e :: above) next parts

/-- What stands at a path, seen from the directory `e`. Nothing outside `e` can be reached. -/
def locate (e : Entry) (path : String) : Except ReadFailure Entry :=
  match path.splitOn "/" with
  | [""] => .error .missing
  | "" :: _ => .error .missing
  | parts => follow [] e parts

/-- Puts a file or directory under the names that lead to it, with the directories above it. -/
def insert (entries : List (String × Entry)) (leaf : Entry) : List String → List (String × Entry)
  | [] => entries
  | [name] =>
    if entries.any (·.1 == name) then
      entries.map fun (n, e) =>
        if n = name then
          match e, leaf with
          | .directory _, .directory _ => (n, e)
          | _, _ => (n, leaf)
        else (n, e)
    else entries ++ [(name, leaf)]
  | name :: parts =>
    match entries.find? (·.1 == name) with
    | some (_, .directory inside) =>
      entries.map fun (n, e) => if n = name then (n, .directory (insert inside leaf parts)) else (n, e)
    | _ => entries ++ [(name, .directory (insert [] leaf parts))]

/-- The places that a path passes, each by the names on the way to it, and last the place where it
ends. `names` lead to the place where it starts. -/
def route (names : List String) : List String → List (List String)
  | [] => [names]
  | part :: parts =>
    let next :=
      if part = "" ∨ part = "." then names
      else if part = ".." then names.dropLast
      else names ++ [part]
    names :: route next parts

/-- Puts a file or directory where a path ends. Every place on the way becomes a directory, those
that the path leaves again too. -/
def place (entries : List (String × Entry)) (leaf : Entry) (path : String) :
    List (String × Entry) :=
  let stops := route [] (path.splitOn "/")
  let passed := stops.dropLast.foldl (fun es names => insert es (.directory []) names) entries
  insert passed leaf (stops.getLast?.getD [])

end Entry

/-- A path as it was written, and what stands there. -/
structure Argument where
  path : String
  entry : Except ReadFailure Entry

namespace Argument

def readText (a : Argument) : Except Failure String :=
  match a.entry with
  | .error cause => .error (.unreadable a.path cause)
  | .ok (.directory _) => .error (.unreadable a.path .isDirectory)
  | .ok (.file content) =>
    match String.fromUTF8? content with
    | some text => .ok text
    | none => .error (.unreadable a.path .notText)

end Argument

namespace Files

/-- Directories that are not searched: hidden ones and build output. -/
def isSkipped (name : String) : Bool := name.toList.head? == some '.' || name == "out"

/-- The extension of a file name: what stands after its last dot, when something stands before
it. -/
def extension? (name : String) : Option String :=
  let reversed := name.toList.reverse
  let ending := reversed.takeWhile (· != '.')
  match reversed.drop ending.length with
  | [] => none
  | [_] => none
  | _ :: _ :: _ => some (String.ofList ending.reverse)

def isModuleFile (name : String) : Bool := extension? name == some "bp"

/-- A file found in a directory: the names on the way to it, and its content. -/
structure Found where
  names : List String
  content : ByteArray

mutual
/-- The module files in an entry with a given name; `inside` are the names above it. -/
def search (inside : List String) (name : String) : Entry → List Found
  | .file content => if isModuleFile name then [⟨inside ++ [name], content⟩] else []
  | .directory entries =>
    if isSkipped name then [] else searchAll (inside ++ [name]) entries

/-- The module files among the entries of a directory. -/
def searchAll (inside : List String) : List (String × Entry) → List Found
  | [] => []
  | (name, e) :: rest => search inside name e ++ searchAll inside rest
end

/-- The order of paths: name by name, and a path before those below it. -/
def namesLe : List String → List String → Bool
  | [], _ => true
  | _ :: _, [] => false
  | a :: as, b :: bs => if a = b then namesLe as bs else decide (a < b)

/-- A path with further names after it. -/
def join (path : String) (names : List String) : String :=
  names.foldl (fun p name => if p.toList.getLast? == some '/' then p ++ name else p ++ "/" ++ name)
    path

/-- The module files below a directory, in order. -/
def inDirectory (path : String) (entries : List (String × Entry)) : List Argument :=
  let found := (searchAll [] entries).mergeSort fun a b => namesLe a.names b.names
  found.map fun f => ⟨join path f.names, .ok (.file f.content)⟩

/-- The files that arguments stand for: a file for itself, and a directory for the module files in
it. -/
def collect : List Argument → Except Failure (List Argument)
  | [] => .ok []
  | a :: as =>
    match a.entry with
    | .error _ => .error (.notFound a.path)
    | .ok (.file content) => do
      return ⟨a.path, .ok (.file content)⟩ :: (← collect as)
    | .ok (.directory entries) => do
      return inDirectory a.path entries ++ (← collect as)

end Files

end Blueprint
