import Blueprint.Grammar.Skip

/-! Values and what they are made of.

    Value           := StringExpr | ArrayExpr | Object | Bool | Number | VariableRefExpr
    StringExpr      := String ('+' String)*
    ArrayExpr       := Array ('+' Array)*
    Array           := '[' Elements? ']'
    Elements        := ArrayElement (',' ArrayElement)* ','?
    Object          := '{' Members? '}'
    Members         := Pair (',' Pair)* ','?
    Pair            := FieldName '=' Value
    VariableRefExpr := VariableValueRef ('+' Value)?

An object, an array and a reference in the tail of another one each lie one level deeper than what
is around them. `Inner` holds the rules of the next level; there is none at the depth limit, and a
construct that would need one is skipped. -/

namespace Blueprint

/-- The kinds of token that can be an element of an array. -/
def elementKinds : List TokenKind := [.string, .bool, .number, .variableName, .link]

/-- The rules that a construct uses for what lies one level deeper. -/
structure Inner where
  value : Rule Outcome
  /-- The links of a chain of references, of which there may be as many as the budget says. -/
  links : (budget : Nat) → Rule Bool

namespace Rule

variable (limits : Limits)

/-- Raises that a loop took too many rounds. -/
def raiseStuck (rule : String) : Rule Unit := raiseHere (.parserStuck rule)

/-- Skips a construct that lies too deep. -/
def tooDeep : Rule Outcome := do
  raiseHere (.nestingTooDeep limits.maxDepth)
  return .incomplete (← skipGroup limits)

/-- Raises that the construct that starts at `start` lacks its value. A token without meaning in its
place is a problem of its own. -/
def raiseMissingValue (start : Span) : Rule Unit := do
  if ← isAt .error then
    raiseExpected valueStart
  else
    raise ⟨.missingValue, start.merge (← view State.previousSpan)⟩

/-- The further strings of a concatenation. -/
def stringTail : (budget : Nat) → Rule Unit
  | 0 => do
    if ← view fun s => s.current == .plus && s.nth 1 == .string then
      raiseStuck "string_expr"
    else
      return ()
  | budget + 1 => do
    if ← view fun s => s.current == .plus && s.nth 1 == .string then
      bump
      bump
      stringTail budget
    else
      return ()

def stringExpr : Rule Outcome := do
  if ← isAt .string then
    nodeOutcome .stringExpr do
      bump
      stringTail limits.maxIterations
      return true
  else
    return .noMatch

def arrayElement : Rule Outcome := do
  if ← isAtAny elementKinds then
    nodeOutcome .arrayElement do
      bump
      return true
  else
    return .noMatch

/-- Elements with commas between them. Tells whether all went well. -/
def elementsLoop : (budget : Nat) → Rule Bool
  | 0 => do
    raiseStuck "elements"
    return false
  | budget + 1 => do
    let element ← arrayElement
    if !element.isMatch then
      raiseExpected elementKinds
      let _ ← skipElements limits
      return false
    else
      match ← current with
      | .separator =>
        bump
        if ← isAt .arrayEnd then
          return true
        else
          elementsLoop budget
      | .arrayEnd => return true
      | .eof => return true
      | _ =>
        raiseExpected [.separator, .arrayEnd]
        let _ ← skipElements limits
        return false

/-- The contents of an array. What cannot be used is skipped up to the closing bracket. -/
def elements : Rule Outcome := nodeOutcome .elements (elementsLoop limits limits.maxIterations)

/-- Everything from the opening to the closing bracket of an array. -/
def arrayBody : Rule Bool := do
  bump
  let inside ← unlessAt [.arrayEnd, .eof] (succeeds (elements limits))
  let closed ← expect .arrayEnd
  return inside && closed

/-- One array. `room` tells whether another level is left. -/
def array (room : Bool) : Rule Outcome := do
  if !(← isAt .arrayStart) then
    return .noMatch
  else if room then
    nodeOutcome .array (arrayBody limits)
  else
    tooDeep limits

/-- The further arrays of a concatenation. -/
def arrayTail (room : Bool) : (budget : Nat) → Rule Bool
  | 0 => do
    if ← view fun s => s.current == .plus && s.nth 1 == .arrayStart then
      raiseStuck "array_expr"
      return false
    else
      return true
  | budget + 1 => do
    if ← view fun s => s.current == .plus && s.nth 1 == .arrayStart then
      bump
      let next ← array limits room
      let rest ← arrayTail room budget
      return next.isComplete && rest
    else
      return true

def arrayExpr (room : Bool) : Rule Outcome := do
  if ← isAt .arrayStart then
    nodeOutcome .arrayExpr do
      let first ← array limits room
      let rest ← arrayTail limits room limits.maxIterations
      return first.isComplete && rest
  else
    return .noMatch

/-- A pair, with `value` as the rule for its value. What it cannot use is skipped. -/
def pair (value : Rule Outcome) : Rule Outcome := do
  if ← isAt .fieldName then
    let start ← view (·.token.span)
    nodeOutcome .pair do
      let _ ← node .fieldName bump
      if ← eat .equals then
        match ← value with
        | .complete _ => return true
        | .incomplete _ => return false
        | .noMatch =>
          raiseMissingValue start
          let _ ← skipPair limits
          return false
      else
        raiseExpected [.equals]
        let _ ← skipPair limits
        return false
  else
    return .noMatch

/-- The pairs of an object or module; `found` tells whether there was one before. Tells whether all
went well and there was a pair. -/
def membersLoop (value : Rule Outcome) : (budget : Nat) → (found : Bool) → Rule Bool
  | 0, _ => do
    raiseStuck "members"
    return false
  | budget + 1, found => do
    match ← current with
    | .objectEnd => return found
    | .eof => return found
    | .fieldName =>
      let entry ← pair limits value
      match ← current with
      | .separator =>
        bump
        let rest ← membersLoop value budget true
        return entry.isComplete && rest
      | .objectEnd => return entry.isComplete
      | .eof => return entry.isComplete
      | _ =>
        raiseExpected [.separator, .objectEnd]
        let _ ← skipMembers limits
        let _ ← membersLoop value budget true
        return false
    | _ =>
      raiseExpected [.fieldName]
      let _ ← skipMembers limits
      let _ ← membersLoop value budget found
      return false

/-- The pairs of an object or module. -/
def members (value : Rule Outcome) : Rule Outcome :=
  nodeOutcome .members (membersLoop limits value limits.maxIterations false)

/-- Everything from the opening to the closing brace of an object or module. -/
def body (value : Rule Outcome) : Rule Bool := do
  if ← expect .objectStart then
    let inside ← unlessAt [.objectEnd, .eof] (succeeds (members limits value))
    let closed ← expect .objectEnd
    return inside && closed
  else
    return false

variable (inner : Option Inner)

def object : Rule Outcome := do
  if ← isAt .objectStart then
    match inner with
    | some rules => nodeOutcome .object (body limits rules.value)
    | none => tooDeep limits
  else
    return .noMatch

/-- The inside of a value that is not a reference. -/
def operand : Rule Bool := do
  match ← current with
  | .string => succeeds (stringExpr limits)
  | .arrayStart => succeeds (arrayExpr limits inner.isSome)
  | .objectStart => succeeds (object limits inner)
  | _ =>
    bump
    return true

/-- The inside of a reference: the name and, after a `+`, the tail. A reference in the tail lies one
level deeper, and there may be as many of them as the budget says. -/
def links : (budget : Nat) → Rule Bool
  | 0 => do
    raiseStuck "variable_ref_expr"
    return false
  | budget + 1 => do
    bump
    if ← view State.atTail then
      bump
      if ← isAt .variableValueRef then
        match inner with
        | some rules =>
          let tail ← node .value (node .variableRefExpr (rules.links budget))
          return tail.2.2
        | none =>
          raiseHere (.nestingTooDeep limits.maxDepth)
          let _ ← skipChain limits
          return false
      else
        return (← node .value (operand limits inner)).2
    else
      return true

/-- A reference to a variable, with what is joined to it. -/
def variableRefExpr : Rule Outcome := do
  if ← isAt .variableValueRef then
    nodeOutcome .variableRefExpr (links limits inner limits.maxIterations)
  else
    return .noMatch

/-- One value. It does not apply when the current token cannot start one. -/
def value : Rule Outcome := do
  if ← isAtAny valueStart then
    nodeOutcome .value do
      if ← isAt .variableValueRef then
        succeeds (variableRefExpr limits inner)
      else
        operand limits inner
  else
    return .noMatch

end Rule

/-- The rules for what lies one level deeper, when `room` levels are left. -/
def innerAt (limits : Limits) : (room : Nat) → Option Inner
  | 0 => none
  | room + 1 =>
    some ⟨fun s => Rule.value limits (innerAt limits room) s,
      fun budget s => Rule.links limits (innerAt limits room) budget s⟩

end Blueprint
