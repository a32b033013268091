import Blueprint.Json

/-! The limits under which a file is parsed, and their JSON form. -/

namespace Blueprint

/-- How deep objects, arrays and chained references may nest, and how many rounds a loop of the
grammar may take. -/
structure Limits where
  maxDepth : Nat := 64
  maxIterations : Nat := 1000000
deriving DecidableEq, Repr

namespace Limits

/-- The limits that hold when nothing else is asked for. -/
def standard : Limits := {}

def withMaxDepth (limits : Limits) (depth : Nat) : Limits := { limits with maxDepth := depth }

/-- Limits are below this number, which takes 65 binary digits. -/
def bound : Nat := 0x10000000000000000

/-- A limit: a whole number from zero that is below the bound. -/
def limitOfJson? : Json → Option Nat
  | .number m 0 => if 0 ≤ m ∧ m.toNat < bound then some m.toNat else none
  | _ => none

/-- A field that may be missing, in which case it is `standard`. -/
def fieldOfJson? (config : Json) (key : String) (standard : Nat) : Option Nat :=
  match config.member? key with
  | none => some standard
  | some v => limitOfJson? v

/-- The limits that a JSON value describes: an object with one field for each limit, or an array
with the depth first. Missing entries are standard; fields of other names are ignored. -/
def ofJson? : Json → Option Limits
  | .object members => do
    let depth ← fieldOfJson? (.object members) "max_depth" standard.maxDepth
    let iterations ←
      fieldOfJson? (.object members) "max_loop_iterations" standard.maxIterations
    return ⟨depth, iterations⟩
  | .array [] => some standard
  | .array [d] => do return ⟨← limitOfJson? d, standard.maxIterations⟩
  | .array [d, i] => do return ⟨← limitOfJson? d, ← limitOfJson? i⟩
  | _ => none

end Limits

end Blueprint
