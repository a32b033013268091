import Blueprint.Limits
import Blueprint.SyntaxError
import Blueprint.Token.Stream
import Blueprint.Tree

/-! Rules: what the grammar is made of. A rule reads the tokens at the front of a state, emits the
elements that it builds and leaves the state after them. It never fails; it raises errors instead.

Rules see significant tokens only. Trivia in front of the current token waits in the state, and is
emitted when that token is consumed or a node is started in front of it. -/

namespace Blueprint

/-- Where the grammar stands in a file. -/
structure State where
  /-- Trivia between the last consumed token and the current one. -/
  pending : List Token
  /-- The tokens from the current one on. The current one is not trivia; at the end of the file
  there is none. -/
  rest : List Token
  eof : Token
  /-- The range of the last consumed token. -/
  previous : Option Span
  /-- How many nodes were started. -/
  nodes : Nat
  /-- Every error that was raised, the last one first. -/
  raised : List SyntaxError
deriving DecidableEq

namespace State

/-- The state with `ts` still to come. -/
def load (s : State) (ts : List Token) : State :=
  { s with pending := ts.takeWhile Token.isTrivia, rest := ts.dropWhile Token.isTrivia }

@[simp] theorem pending_append_rest_load (s : State) (ts : List Token) :
    (s.load ts).pending ++ (s.load ts).rest = ts := List.takeWhile_append_dropWhile

theorem isTrivia_of_mem_pending_load {s : State} {ts : List Token} {t : Token}
    (h : t ∈ (s.load ts).pending) : t.isTrivia := by
  induction ts with
  | nil => cases h
  | cons u us ih =>
    by_cases hu : u.isTrivia
    · rw [load, List.takeWhile_cons_of_pos hu] at h
      rcases List.mem_cons.1 h with rfl | h
      · exact hu
      · exact ih h
    · rw [load, List.takeWhile_cons_of_neg hu] at h
      cases h

/-- The state in front of a whole file. -/
def ofStream (ts : TokenStream) : State :=
  State.load ⟨[], [], ts.eof, none, 0, []⟩ ts.body

/-- The current token, which is the end-of-file token when no other is left. -/
def token (s : State) : Token := s.rest.headD s.eof

def current (s : State) : TokenKind := s.token.kind

/-- The tokens that no node holds yet. -/
def unattached (s : State) : List Token := s.pending ++ s.rest ++ [s.eof]

/-- The range of the last consumed token, or of the current one when there is none. -/
def previousSpan (s : State) : Span := s.previous.getD s.token.span

/-- The kind of the significant token that has `n` others of `ts` in front of it. -/
def lookAhead : List Token → Nat → TokenKind
  | [], _ => .eof
  | t :: ts, n =>
    if t.isTrivia then lookAhead ts n
    else match n with
      | 0 => t.kind
      | n + 1 => lookAhead ts n

/-- The kind of the significant token `n` places after the current one. -/
def nth (s : State) (n : Nat) : TokenKind := lookAhead s.rest n

def atEof (s : State) : Bool := s.current == .eof

def position (s : State) : Nat := s.token.index

/-- The pending trivia has whitespace in it. -/
def afterWhitespace (s : State) : Bool := s.pending.any (·.kind == .whitespace)

/-- The errors on record, the first one first. -/
def errors (s : State) : List SyntaxError := (SyntaxError.recorded s.raised).reverse

/-- A field name directly in front of an `=` or `:`. -/
def atPairStart (s : State) : Bool := s.current == .fieldName && s.nth 1 == .equals

/-- The range of a node with the given children that ends here: over its children, or empty in
front of the next unattached token. -/
def nodeSpan (s : State) (children : List Element) : Span :=
  (Element.spanOver children).getD (Span.startOf ((s.unattached.headD s.eof).span))

end State

/-- What a rule leaves: a value, the emitted elements and the state after them. -/
structure Reply (α : Type) where
  value : α
  emitted : List Element
  state : State

/-- A part of the grammar. -/
def Rule (α : Type) := State → Reply α

namespace Rule

/-- What a rule emits comes before what the next one emits. -/
def andThen {α β : Type} (r : Rule α) (f : α → Rule β) : Rule β := fun s =>
  let a := r s
  let b := f a.value a.state
  ⟨b.value, a.emitted ++ b.emitted, b.state⟩

instance : Monad Rule where
  pure a := fun s => ⟨a, [], s⟩
  bind := andThen

@[simp] theorem pure_apply {α : Type} (a : α) (s : State) : (pure a : Rule α) s = ⟨a, [], s⟩ := rfl

@[simp] theorem bind_apply {α β : Type} (r : Rule α) (f : α → Rule β) (s : State) :
    (r >>= f) s =
      ⟨(f (r s).value (r s).state).value, (r s).emitted ++ (f (r s).value (r s).state).emitted,
        (f (r s).value (r s).state).state⟩ := rfl

def view {α : Type} (f : State → α) : Rule α := fun s => ⟨f s, [], s⟩

@[simp] theorem view_apply {α : Type} (f : State → α) (s : State) : view f s = ⟨f s, [], s⟩ := rfl

def current : Rule TokenKind := view State.current

def isAt (kind : TokenKind) : Rule Bool := view fun s => s.current == kind

def isAtAny (kinds : List TokenKind) : Rule Bool := view fun s => kinds.contains s.current

def flush : Rule Unit := fun s => ⟨(), s.pending.map .token, { s with pending := [] }⟩

/-- Consumes the current token, with the trivia in front of it. The end-of-file token stays. -/
def bump : Rule Unit := fun s =>
  match s.rest with
  | [] => ⟨(), [], s⟩
  | t :: ts =>
    ⟨(), s.pending.map .token ++ [.token t], { s.load ts with previous := some t.span }⟩

/-- Consumes the current token when it has the given kind. -/
def eat (kind : TokenKind) : Rule Bool := do
  if ← isAt kind then
    bump
    return true
  else
    return false

def raise (e : SyntaxError) : Rule Unit := fun s => ⟨(), [], { s with raised := e :: s.raised }⟩

/-- Raises a problem with the current token. -/
def raiseHere (problem : Problem) : Rule Unit := do
  raise ⟨problem, ← view (·.token.span)⟩

/-- Raises that one of `expected` should stand here. A token without meaning is a problem of its
own. -/
def raiseExpected (expected : List TokenKind) : Rule Unit := do
  let t ← view State.token
  raise ⟨if t.kind = .error then .lexical t.chars else .unexpected expected t.kind, t.span⟩

/-- Consumes a token of the given kind, or raises that it is missing. -/
def expect (kind : TokenKind) : Rule Bool := do
  if ← eat kind then
    return true
  else
    raiseExpected [kind]
    return false

/-- Consumes the token between a name and its value. -/
def eatAssignment : Rule Bool := do
  if ← eat .equals then
    return true
  else
    eat .plusEquals

/-- Runs `r` unless the current token has one of the given kinds, in which case all is well. -/
def unlessAt (kinds : List TokenKind) (r : Rule Bool) : Rule Bool := do
  if ← isAtAny kinds then
    return true
  else
    r

/-- Takes the number of a new node. -/
def freshId : Rule Nat := fun s => ⟨s.nodes, [], { s with nodes := s.nodes + 1 }⟩

/-- Emits what `body` emits as the children of one node with the given number. -/
def enclose {α : Type} (id : Nat) (kind : NodeKind) (body : Rule α) : Rule α := fun s =>
  let r := body s
  ⟨r.value, [.node id kind (r.state.nodeSpan r.emitted) r.emitted], r.state⟩

/-- Runs `body` inside a new node. Trivia in front of the node stays outside. The number of the node
comes back with the value of `body`. -/
def node {α : Type} (kind : NodeKind) (body : Rule α) : Rule (Nat × α) := do
  flush
  let id ← freshId
  return (id, ← enclose id kind body)

end Rule

/-- How a rule of the grammar went. It did not apply and consumed nothing, or it built a node,
after trouble an incomplete one. -/
inductive Outcome where
  | complete (id : Nat)
  | incomplete (id : Nat)
  | noMatch
deriving DecidableEq, Repr

namespace Outcome

def isMatch : Outcome → Bool
  | .noMatch => false
  | _ => true

def isComplete : Outcome → Bool
  | .complete _ => true
  | _ => false

def node? : Outcome → Option Nat
  | .complete id => some id
  | .incomplete id => some id
  | .noMatch => none

/-- The outcome for a node whose parts went well or not. -/
def ofNode (id : Nat) (ok : Bool) : Outcome := if ok then .complete id else .incomplete id

end Outcome

/-- Runs `body` inside a new node, which is complete when `body` says so. -/
def Rule.nodeOutcome (kind : NodeKind) (body : Rule Bool) : Rule Outcome := do
  let r ← Rule.node kind body
  return .ofNode r.1 r.2

/-- Runs a rule of the grammar, and tells whether it built a complete node. -/
def Rule.succeeds (r : Rule Outcome) : Rule Bool := do
  let o ← r
  return o.isComplete

end Blueprint
