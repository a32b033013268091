import Blueprint.Grammar.File

/-! Sessions: the grammar run step by step. A session holds the nodes that are open and those that
were finished outside any open node. What a rule emits goes into the innermost open node. When none
is open, tokens go to the first node ever started, and nodes stand alone. An operation that would
emit a token before any node was started is refused. -/

namespace Blueprint

/-- A node that is still open, with its children so far. -/
structure Frame where
  id : Nat
  kind : NodeKind
  children : List Element
deriving DecidableEq

/-- A parse under way. -/
structure Session where
  limits : Limits
  /-- The number of levels that are entered. -/
  depth : Nat
  /-- The open nodes, the innermost first. -/
  frames : List Frame
  /-- The first node that was started, once it is finished. -/
  root : Option Node
  /-- Nodes other than the first that were started while none was open. -/
  alone : List Element
  state : State
deriving DecidableEq

/-- The rules that can be run on their own. -/
inductive Production where
  | blueprint
  | variable
  | members
  | pair
  | object
  | value
  | stringExpr
  | arrayExpr
  | array
  | elements
  | arrayElement
  | variableRefExpr
deriving DecidableEq, Repr

/-- The rule of a production when `room` levels are left. -/
def Production.rule (limits : Limits) (room : Nat) : Production → Rule Outcome
  | .blueprint => Rule.blueprint limits room
  | .variable => Rule.variableDef limits room
  | .members => Rule.members limits (Rule.value limits (innerAt limits room))
  | .pair => Rule.pair limits (Rule.value limits (innerAt limits room))
  | .object => Rule.object limits (innerAt limits room)
  | .value => Rule.value limits (innerAt limits room)
  | .stringExpr => Rule.stringExpr limits
  | .arrayExpr => Rule.arrayExpr limits (innerAt limits room).isSome
  | .array => Rule.array limits (innerAt limits room).isSome
  | .elements => Rule.elements limits
  | .arrayElement => Rule.arrayElement
  | .variableRefExpr => Rule.variableRefExpr limits (innerAt limits room)

/-- The places that skipping can go on to. -/
inductive Landing where
  | pair
  | members
  | elements
  | item
  /-- A token of one of the given kinds. -/
  | kinds (kinds : List TokenKind)
  /-- A place of the caller's choice. -/
  | place (stop : State → Bool)

/-- The rule that skips to a landing. -/
def Landing.skip (limits : Limits) : Landing → Rule Bool
  | .pair => Rule.skipPair limits
  | .members => Rule.skipMembers limits
  | .elements => Rule.skipElements limits
  | .item => Rule.skipItem limits
  | .kinds ks => Rule.skipUntil limits fun s => ks.contains s.current
  | .place stop => Rule.skipUntil limits stop

inductive Operation where
  | start (kind : NodeKind)
  | finish
  | bump
  | eat (kind : TokenKind)
  | expect (kind : TokenKind)
  | raise (e : SyntaxError)
  | raiseExpected (expected : List TokenKind)
  | raiseMissingValue (start : Span)
  | items
  | produce (production : Production)
  | skipTo (landing : Landing)
  | skipGroup
  | skipChain
  /-- Operations one level deeper. -/
  | deeper (operations : List Operation)

inductive Answer where
  | none
  | flag (value : Bool)
  | node (id : Nat)
  | outcome (value : Outcome)
deriving DecidableEq, Repr

namespace Session

/-- The session in front of a text, with no node open. -/
def begin (source : String) (limits : Limits) : Session :=
  ⟨limits, 0, [], none, [], State.ofStream (TokenStream.ofChars source.toList)⟩

/-- How many levels are left. -/
def room (s : Session) : Nat := s.limits.maxDepth - s.depth

/-- Another level is left. -/
def canEnter (s : Session) : Bool := s.depth < s.limits.maxDepth

/-- One level deeper. -/
def enter (s : Session) : Session := { s with depth := s.depth + 1 }

/-- Back from a level that was entered. -/
def leave (s : Session) : Session := { s with depth := s.depth - 1 }

/-- The errors on record, the first one first. -/
def errors (s : Session) : List SyntaxError := s.state.errors

/-- Puts an element where it belongs. -/
def attach (s : Session) (e : Element) : Option Session :=
  match s.frames with
  | f :: fs => some { s with frames := { f with children := f.children ++ [e] } :: fs }
  | [] =>
    match s.root, e with
    | none, .node i k sp cs => some { s with root := some ⟨i, k, sp, cs⟩ }
    | none, .token _ => none
    | some r, .token t => some { s with root := some { r with children := r.children ++ [.token t] } }
    | some _, .node i k sp cs => some { s with alone := s.alone ++ [.node i k sp cs] }

/-- Puts elements where they belong, in order. -/
def attachAll (s : Session) : List Element → Option Session
  | [] => some s
  | e :: es => do (← s.attach e).attachAll es

/-- Runs a rule and puts what it emits where it belongs. -/
def run {α : Type} (s : Session) (r : Rule α) : Option (α × Session) := do
  let reply := r s.state
  return (reply.value, ← { s with state := reply.state }.attachAll reply.emitted)

def start (s : Session) (kind : NodeKind) : Option (Nat × Session) := do
  let (id, s) ← s.run (do Rule.flush; Rule.freshId)
  return (id, { s with frames := ⟨id, kind, []⟩ :: s.frames })

/-- Closes the innermost open node, if there is one. -/
def finish (s : Session) : Option Session :=
  match s.frames with
  | [] => some s
  | f :: fs =>
    { s with frames := fs }.attach
      (.node f.id f.kind (s.state.nodeSpan f.children) f.children)

/-- Runs a rule that tells nothing. -/
def runSilent (s : Session) (r : Rule Unit) : Option (Answer × Session) := do
  let (_, s) ← s.run r
  return (.none, s)

mutual
def perform (s : Session) : Operation → Option (Answer × Session)
  | .start kind => do
    let (id, s) ← s.start kind
    return (.node id, s)
  | .finish => do return (.none, ← s.finish)
  | .bump => s.runSilent Rule.bump
  | .eat kind => do
    let (ok, s) ← s.run (Rule.eat kind)
    return (.flag ok, s)
  | .expect kind => do
    let (ok, s) ← s.run (Rule.expect kind)
    return (.flag ok, s)
  | .raise e => s.runSilent (Rule.raise e)
  | .raiseExpected expected => s.runSilent (Rule.raiseExpected expected)
  | .raiseMissingValue start => s.runSilent (Rule.raiseMissingValue start)
  | .items => s.runSilent (Rule.items s.limits s.room s.limits.maxIterations)
  | .produce production => do
    let (o, s) ← s.run (production.rule s.limits s.room)
    return (.outcome o, s)
  | .skipTo landing => do
    let (skipped, s) ← s.run (landing.skip s.limits)
    return (.flag skipped, s)
  | .skipGroup => do
    let (id, s) ← s.run (Rule.skipGroup s.limits)
    return (.node id, s)
  | .skipChain => do
    let (id, s) ← s.run (Rule.skipChain s.limits)
    return (.node id, s)
  | .deeper operations => do return (.none, (← s.enter.performAll operations).leave)

def performAll (s : Session) : List Operation → Option Session
  | [] => some s
  | op :: ops => do (← s.perform op).2.performAll ops
end

/-- Closes open nodes until none is left; `fs` are the open ones. -/
def closeAll (s : Session) : (fs : List Frame) → Option Session
  | [] => some s
  | _ :: fs => do (← s.finish).closeAll fs

/-- Parses the rest of the text as a file inside the innermost open node, and closes all nodes. -/
def close (s : Session) : Option Session := do
  let (file, s) ← s.run (Rule.file s.limits s.room)
  let s ← s.attach file.toElement
  s.closeAll s.frames

/-- Closes the session. The result is the first node that was started, and the errors. -/
def complete (s : Session) : Option (Node × List SyntaxError) := do
  let s ← s.close
  return (← s.root, s.errors)

/-- How often the errors of a loop limit come up in `n` rounds of a loop that may take `most`: the
answer for each round is the error that it raises. -/
def loopErrors (rule : String) (most n : Nat) (span : Span) : List (Option SyntaxError) :=
  (List.range n).map fun round =>
    if round < most then none else some ⟨.parserStuck rule, span⟩

end Session

end Blueprint
