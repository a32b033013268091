import Blueprint.Files
import Blueprint.Styled

/-! What a command leaves: its answer or the reason why it failed, and what it wrote. -/

namespace Blueprint

inductive Format where
  | pretty
  | json
deriving DecidableEq, Repr

namespace Format

def name : Format → String
  | .pretty => "pretty"
  | .json => "json"

def ofName? (name : String) : Option Format := [pretty, json].find? (·.name == name)

end Format

/-- The end of a command: its answer, what it printed, and the diagnostics that it reported. -/
structure CommandResult (α : Type) where
  answer : Except Failure α
  out : List Piece := []
  diagnostics : String := ""

namespace CommandResult

variable {α : Type}

def fail (f : Failure) : CommandResult α := { answer := .error f }

def print (a : α) (out : List Piece) : CommandResult α := { answer := .ok a, out }

end CommandResult

end Blueprint
