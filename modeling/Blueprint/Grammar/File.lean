import Blueprint.Grammar.Value
import Blueprint.Tree.Cursor

/-! Files.

    File      := (Blueprint | Variable)*
    Blueprint := BlueprintTypeName '{' Members? '}'
    Variable  := VariableName ('=' | '+=') Value

`parse` turns every text into a tree that holds all of its tokens, and lists what is wrong. -/

namespace Blueprint

namespace Rule

variable (limits : Limits) (room : Nat)

/-- A module definition; `room` levels are left inside it. -/
def blueprint : Rule Outcome := do
  if ← isAt .blueprintTypeName then
    nodeOutcome .blueprint do
      let _ ← node .blueprintType bump
      body limits (value limits (innerAt limits room))
  else
    return .noMatch

/-- A variable definition; `room` levels are left inside it. -/
def variableDef : Rule Outcome := do
  if ← isAt .variableName then
    let start ← view (·.token.span)
    nodeOutcome .variable do
      bump
      if ← eatAssignment then
        match ← value limits (innerAt limits room) with
        | .complete _ => return true
        | .incomplete _ => return false
        | .noMatch =>
          raiseMissingValue start
          return false
      else
        raiseExpected [.equals, .plusEquals]
        return false
  else
    return .noMatch

def item : Rule Outcome := do
  match ← current with
  | .blueprintTypeName => blueprint limits room
  | .variableName => variableDef limits room
  | _ => return .noMatch

/-- One item, or the way to the next one. -/
def itemOrSkip : Rule Unit := do
  let parsed ← item limits room
  if parsed.isMatch then
    return ()
  else
    raiseExpected [.blueprintTypeName, .variableName]
    let _ ← skipItem limits
    return ()

/-- Takes one token out of the way when the position still is `before`. -/
def forceProgress (before : Nat) : Rule Unit := do
  if ← view fun s => s.position == before then
    raiseStuck "file"
    let _ ← node .error bump
    return ()
  else
    return ()

def items : (budget : Nat) → Rule Unit
  | 0 => do
    if ← view State.atEof then
      return ()
    else
      raiseStuck "file"
  | budget + 1 => do
    if ← view State.atEof then
      return ()
    else
      let before ← view State.position
      itemOrSkip limits room
      forceProgress before
      items budget

/-- Consumes every token that `ts` counts. -/
def bumpAll : (ts : List Token) → Rule Unit
  | [] => pure ()
  | _ :: ts => do
    bump
    bumpAll ts

/-- Puts the tokens that the items left over into an error node. -/
def leftover : Rule Unit := do
  if ← view State.atEof then
    return ()
  else
    let ts ← view State.rest
    let _ ← node .error (bumpAll ts)
    return ()

/-- Emits the end-of-file token with the trivia in front of it. -/
def endOfFile : Rule Unit := do
  flush
  fun s => ⟨(), [.token s.eof], s⟩

def fileBody : Rule Unit := do
  items limits room limits.maxIterations
  leftover
  endOfFile

/-- The node for a whole file, not emitted. Trivia in front of the file belongs to it. -/
def file : Rule Node := fun s =>
  let r := fileBody limits room { s with nodes := s.nodes + 1 }
  ⟨⟨s.nodes, .file, r.state.nodeSpan r.emitted, r.emitted⟩, [], r.state⟩

end Rule

/-- A parsed file: its tree and its errors, in order. -/
structure Parse where
  tree : Tree
  errors : List SyntaxError
deriving DecidableEq

namespace Parse

def isOk (p : Parse) : Bool := p.errors.isEmpty

end Parse

def parse (source : String) (limits : Limits := .standard) : Parse :=
  let stream := TokenStream.ofChars source.toList
  let r := Rule.file limits limits.maxDepth (State.ofStream stream)
  ⟨⟨source, stream.toList, r.value⟩, r.state.errors⟩

end Blueprint
