import Blueprint.Session

/-! Arenas: how the nodes of a session are kept. Nodes and tokens have numbers, and a node knows its
parent and its children by them. An access to a number that is not there fails. -/

namespace Blueprint

/-- A child of a node, by its number. -/
inductive ChildId where
  | token (index : Nat)
  | node (id : Nat)
deriving DecidableEq, Repr

/-- What is kept of a node. -/
structure Record where
  kind : NodeKind
  parent : Option Nat
  children : List ChildId
  span : Span
deriving DecidableEq

/-- The node with more children behind those that it has. -/
def Record.adopt (children : List ChildId) (r : Record) : Record :=
  { r with children := r.children ++ children }

/-- The tokens of a text and the nodes that were started, each in the order of their numbers. -/
structure Arena where
  tokens : List Token
  /-- The node that each token was attached to. -/
  owners : List (Option Nat)
  nodes : List Record
  /-- The open nodes, the innermost first. -/
  opened : List Nat
  /-- The first token that was not attached. -/
  attached : Nat
deriving DecidableEq

namespace Arena

/-- The arena of a text before a node is started. -/
def begin (source : String) : Arena :=
  ⟨tokenize source, (tokenize source).map fun _ => none, [], [], 0⟩

/-- The number of the first token that was not attached and is not trivia, or of the last one. -/
def cursor (a : Arena) : Nat :=
  a.attached + ((a.tokens.drop a.attached).dropLast.takeWhile Token.isTrivia).length

/-- The token at the cursor. -/
def current (a : Arena) : Option Token := a.tokens[a.cursor]?

/-- The node that gets what is attached: the innermost open one, or the first of all. -/
def owner (a : Arena) : Nat := a.opened.headD 0

/-- Adds a child to a node. -/
def push (a : Arena) (id : Nat) (child : ChildId) : Option Arena := do
  let _ ← a.nodes[id]?
  return { a with nodes := a.nodes.modify id (.adopt [child]) }

/-- Attaches a token. -/
def token (a : Arena) (index : Nat) : Option Arena := do
  let b ← a.push a.owner (.token index)
  let _ ← b.owners[index]?
  return { b with
    owners := b.owners.set index (some a.owner)
    attached := max b.attached (index + 1) }

/-- Starts a node. It is a child of the innermost open one. -/
def start (a : Arena) (kind : NodeKind) : Option Arena :=
  let id := a.nodes.length
  let b := { a with
    nodes := a.nodes ++ [⟨kind, a.opened.head?, [], ⟨0, 0, 0, 0⟩⟩]
    opened := id :: a.opened }
  match a.opened with
  | [] => some b
  | parent :: _ => b.push parent (.node id)

/-- The range of a child. -/
def spanOf (a : Arena) : ChildId → Option Span
  | .token index => do return (← a.tokens[index]?).span
  | .node id => do return (← a.nodes[id]?).span

/-- The range of the next token that was not attached, or of the last token of all. -/
def nextSpan (a : Arena) : Span :=
  ((a.tokens[a.attached]?.or a.tokens.getLast?).map Token.span).getD ⟨0, 0, 1, 1⟩

/-- The range of a node with the given children. -/
def spanOver (a : Arena) (children : List ChildId) : Option Span :=
  match children.head?, children.getLast? with
  | some first, some last => do return (← a.spanOf first).merge (← a.spanOf last)
  | _, _ => some (Span.startOf a.nextSpan)

/-- Closes the innermost open node, if there is one. -/
def finish (a : Arena) : Option Arena :=
  match a.opened with
  | [] => some a
  | id :: ids => do
    let r ← a.nodes[id]?
    let span ← a.spanOver r.children
    return { a with nodes := a.nodes.modify id ({ · with span }), opened := ids }

/-- Closes open nodes until none is left; `ids` are the open ones. -/
def finishAll (a : Arena) : (ids : List Nat) → Option Arena
  | [] => some a
  | _ :: ids => do (← a.finish).finishAll ids

mutual
/-- Builds an element, with a look at the current token before. -/
def build (a : Arena) : Element → Option Arena
  | .token t => do
    let _ ← a.current
    a.token t.index
  | .node _ kind _ cs => do
    let _ ← a.current
    (← (← a.start kind).buildAll cs).finish

def buildAll (a : Arena) : List Element → Option Arena
  | [] => some a
  | e :: es => do (← a.build e).buildAll es
end

end Arena

namespace Session

/-- What the rule emits that an operation runs. -/
def emitted (s : Session) : Operation → List Element
  | .start _ => (Rule.flush s.state).emitted
  | .finish | .deeper _ => []
  | .bump => (Rule.bump s.state).emitted
  | .eat kind => (Rule.eat kind s.state).emitted
  | .expect kind => (Rule.expect kind s.state).emitted
  | .raise e => (Rule.raise e s.state).emitted
  | .raiseExpected expected => (Rule.raiseExpected expected s.state).emitted
  | .raiseMissingValue start => (Rule.raiseMissingValue start s.state).emitted
  | .items => (Rule.items s.limits s.room s.limits.maxIterations s.state).emitted
  | .produce production => (production.rule s.limits s.room s.state).emitted
  | .skipTo landing => (landing.skip s.limits s.state).emitted
  | .skipGroup => (Rule.skipGroup s.limits s.state).emitted
  | .skipChain => (Rule.skipChain s.limits s.state).emitted

mutual
/-- Performs an operation of the session in its arena. -/
def performIn (s : Session) (a : Arena) : Operation → Option Arena
  | .start kind => do (← a.buildAll (s.emitted (.start kind))).start kind
  | .finish => a.finish
  | .deeper operations => s.enter.performAllIn a operations
  | op => do
    let _ ← a.current
    a.buildAll (s.emitted op)

def performAllIn (s : Session) (a : Arena) : List Operation → Option Arena
  | [] => some a
  | op :: ops => do
    let b ← s.performIn a op
    (← s.perform op).2.performAllIn b ops
end

/-- Closes the session in its arena. -/
def closeIn (s : Session) (a : Arena) : Option Arena := do
  let file := (Rule.file s.limits s.room s.state).value
  let a ← a.build file.toElement
  a.finishAll a.opened

end Session

end Blueprint
