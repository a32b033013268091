import Blueprint.Session

/-! Chains of references, read in a session. In `A + B + C` every reference stands in the value that is
the tail of the one before it. A chain may be long, so its links are taken in a loop: each of them
starts two more nodes and enters one more level, and all are left together at the end. -/

namespace Blueprint.Session

/-- How the loop over a chain ended: whether all went well, how many levels were entered in it, and how
many nodes are to be closed. -/
structure ChainEnd where
  ok : Bool
  levels : Nat
  opened : Nat
deriving DecidableEq, Repr

/-- Back from a number of levels that were entered. -/
def lower (s : Session) (levels : Nat) : Session := { s with depth := s.depth - levels }

/-- Closes as many open nodes. -/
def finishMany (s : Session) : (count : Nat) → Option Session
  | 0 => some s
  | count + 1 => do (← s.finish).finishMany count

/-- The links of a chain from the current reference on, when so many levels were entered and so many
nodes started before. -/
def chainLoop (s : Session) : (budget levels opened : Nat) → Option (ChainEnd × Session)
  | 0, levels, opened => do
    let (_, s) ← s.run (Rule.raiseStuck "variable_ref_expr")
    return (⟨false, levels, opened⟩, s)
  | budget + 1, levels, opened => do
    let (_, s) ← s.run Rule.bump
    if s.state.atTail then
      let (_, s) ← s.run Rule.bump
      if s.state.current == .variableValueRef then
        if s.canEnter then
          let (_, s) ← s.enter.start .value
          let (_, s) ← s.start .variableRefExpr
          s.chainLoop budget (levels + 1) (opened + 2)
        else
          let (_, s) ← s.run (Rule.raiseHere (.nestingTooDeep s.limits.maxDepth))
          let (_, s) ← s.run (Rule.skipChain s.limits)
          return (⟨false, levels, opened⟩, s)
      else
        let (o, s) ← s.run (Rule.value s.limits (innerAt s.limits s.room))
        return (⟨o.isComplete, levels, opened⟩, s)
    else
      return (⟨true, levels, opened⟩, s)

/-- A reference with the chain behind it. -/
def chain (s : Session) : Option (Outcome × Session) :=
  if s.state.current == .variableValueRef then do
    let (id, s) ← s.start .variableRefExpr
    let (e, s) ← s.chainLoop s.limits.maxIterations 0 1
    let s ← (s.lower e.levels).finishMany e.opened
    return (.ofNode id e.ok, s)
  else
    return (.noMatch, s)

end Blueprint.Session
