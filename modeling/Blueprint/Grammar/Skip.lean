import Blueprint.Grammar.Rule

/-! Skipping. After an error the grammar goes on at a place where it can find its way again. What
lies between is kept in an error node. Brackets that open in the skipped part are skipped together
with what they enclose, so that nothing inside them ends the skipping early. -/

namespace Blueprint

/-- The kinds of token that a value can start with. -/
def valueStart : List TokenKind :=
  [.string, .arrayStart, .objectStart, .bool, .number, .variableValueRef]

namespace State

/-- The current token is a `+` with the start of a value after it. -/
def atTail (s : State) : Bool := s.current == .plus && valueStart.contains (s.nth 1)

end State

namespace Rule

/-- The bracket depth after a token. A closing bracket at depth zero changes nothing. -/
def depthAfter (depth : Nat) : TokenKind → Nat
  | .objectStart | .arrayStart => depth + 1
  | .objectEnd | .arrayEnd => depth - 1
  | _ => depth

/-- Consumes tokens until `stop` holds outside brackets, at most `budget` of them. -/
def skipLoop (stop : State → Bool) : (budget depth : Nat) → Rule Unit
  | 0, _ => pure ()
  | budget + 1, depth => do
    if ← view fun s => s.atEof || (depth == 0 && stop s) then
      return ()
    else
      let kind ← current
      bump
      skipLoop stop budget (depthAfter depth kind)

/-- Skips into an error node until `stop` holds outside brackets. Tells whether there was anything
to skip. -/
def skipUntil (limits : Limits) (stop : State → Bool) : Rule Bool := do
  if ← view fun s => s.atEof || stop s then
    return false
  else
    let _ ← node .error (skipLoop stop limits.maxIterations 0)
    return true

/-- Consumes one token, or everything through the bracket that closes it when it opens one. -/
def bumpGroup : (budget depth : Nat) → Rule Unit
  | 0, _ => pure ()
  | budget + 1, depth => do
    if ← view State.atEof then
      return ()
    else
      let kind ← current
      bump
      if depthAfter depth kind = 0 then
        return ()
      else
        bumpGroup budget (depthAfter depth kind)

/-- Skips one token or bracketed group into an error node. -/
def skipGroup (limits : Limits) : Rule Nat := do
  let r ← node .error (bumpGroup limits.maxIterations 0)
  return r.1

/-- Consumes the operands of a chain of `+`, at most `budget` of them. -/
def bumpChain (limits : Limits) : (budget : Nat) → Rule Unit
  | 0 => pure ()
  | budget + 1 => do
    if ← view State.atEof then
      return ()
    else
      bumpGroup limits.maxIterations 0
      if ← view State.atTail then
        bump
        bumpChain limits budget
      else
        return ()

/-- Skips the rest of a chain of `+`, from the current operand on, into an error node. -/
def skipChain (limits : Limits) : Rule Nat := do
  let r ← node .error (bumpChain limits limits.maxIterations)
  return r.1

/-- After a pair went wrong: on to a comma, the closing brace, or a new pair with whitespace before
it. -/
def skipPair (limits : Limits) : Rule Bool :=
  skipUntil limits fun s =>
    [TokenKind.separator, .objectEnd].contains s.current || (s.afterWhitespace && s.atPairStart)

/-- Between pairs: on to the closing brace or a new pair. -/
def skipMembers (limits : Limits) : Rule Bool :=
  skipUntil limits fun s => s.current == .objectEnd || s.atPairStart

/-- Inside an array: on to the closing bracket. A brace also ends it, so that the object around the
array can close. -/
def skipElements (limits : Limits) : Rule Bool :=
  skipUntil limits fun s => [TokenKind.arrayEnd, .objectEnd].contains s.current

/-- Between the items of a file: on to a new item. -/
def skipItem (limits : Limits) : Rule Bool :=
  skipUntil limits fun s => [TokenKind.blueprintTypeName, .variableName].contains s.current

end Rule

end Blueprint
