import Blueprint.Grammar.Skip
import Blueprint.Tree.Cursor
import Blueprint.Proofs.Token.Stream

/-!
# Error nodes that are not cut short

Skipping that takes too many rounds stops where it is, and raises no error about it. What tells is
the place where its error node ends: skipping that was not cut short ends where it does by itself
(`Element.endsItself`). `Element.uncut` says so of every error node with as many tokens as there may
be rounds; with fewer tokens none is cut short.
-/

namespace Blueprint

/-- Skipping below a node of this kind stops, outside brackets, in front of the tokens `ts`. -/
def NodeKind.resumesAt (ts : List Token) (kind : NodeKind) : Bool :=
  let next := State.lookAhead ts 0
  let nextPair := next == .fieldName && State.lookAhead ts 1 == .equals
  match kind with
  | .pair => [TokenKind.separator, .objectEnd].contains next ||
    ((ts.takeWhile Token.isTrivia).any (·.kind == .whitespace) && nextPair)
  | .members => next == .objectEnd || nextPair
  | .elements => [TokenKind.arrayEnd, .objectEnd].contains next
  | .file => [TokenKind.blueprintTypeName, .variableName].contains next
  | _ => false

namespace Rule

/-- What a token makes of the bracket depth, and of how many tokens stand from the first open
bracket on. -/
def track (d : Nat × Nat) (kind : TokenKind) : Nat × Nat :=
  let depth := depthAfter d.1 kind
  (depth, if depth = 0 then 0 else d.2 + 1)

end Rule

namespace TokenKind

/-- How many tokens stand from the first bracket on that is not closed. -/
def unclosed (kinds : List TokenKind) : Nat := (kinds.foldl Rule.track (0, 0)).2

/-- Tokens of these kinds are whole groups with a `+` between them. At the end of the file the last
group may be open, when it has no more than `limit` tokens. -/
def wholeGroups (limit : Nat) (atEnd : Bool) (kinds : List TokenKind) : Bool :=
  (atEnd && unclosed kinds ≤ limit) || (unclosed kinds == 0 && kinds.getLast?.any (· != .plus))

end TokenKind

namespace Element

/-- An error node over tokens of the given kinds, below a node of kind `parent` and with the tokens
`behind` after it, ends where its skipping ends by itself. Constructs that lie too deep are skipped
as whole groups, and everything else up to a place to go on from. -/
def endsItself (limit : Nat) (parent : NodeKind) (kinds : List TokenKind) (behind : List Token) :
    Bool :=
  let atEnd := State.lookAhead behind 0 == .eof
  if [NodeKind.arrayExpr, .value, .variableRefExpr].contains parent then
    TokenKind.wholeGroups limit atEnd kinds
  else
    atEnd || (kinds.foldl Rule.depthAfter 0 == 0 && parent.resumesAt behind)

mutual
/-- Below a node of kind `parent` and with the tokens `behind` after it, no error node was cut short
after `limit` rounds. -/
def uncut (limit : Nat) (parent : NodeKind) (behind : List Token) : Element → Bool
  | token _ => true
  | node _ kind _ cs =>
    let kinds := Token.kindsOf (leavesAll cs)
    (kind != .error || kinds.length < limit || endsItself limit parent kinds behind) &&
      uncutAll limit kind behind cs

def uncutAll (limit : Nat) (parent : NodeKind) (behind : List Token) : List Element → Bool
  | [] => true
  | e :: es => e.uncut limit parent (leavesAll es ++ behind) && uncutAll limit parent behind es
end

variable {limit : Nat} {parent : NodeKind} {behind : List Token}

theorem uncutAll_append (es fs : List Element) :
    uncutAll limit parent behind (es ++ fs) =
      (uncutAll limit parent (leavesAll fs ++ behind) es && uncutAll limit parent behind fs) := by
  induction es with
  | nil => rw [List.nil_append, uncutAll, Bool.true_and]
  | cons e es ih =>
    rw [List.cons_append, uncutAll, uncutAll, ih, leavesAll_append, List.append_assoc,
      Bool.and_assoc]

theorem uncutAll_map_token (ts : List Token) :
    uncutAll limit parent behind (ts.map .token) = true := by
  induction ts with
  | nil => rfl
  | cons t ts ih => rw [List.map_cons, uncutAll, uncut, ih, Bool.and_true]

/-- A node behind trivia. -/
theorem uncutAll_pending_node (ts : List Token) (id : Nat) (kind : NodeKind) (span : Span)
    (cs : List Element) : uncutAll limit parent behind (ts.map .token ++ [.node id kind span cs]) =
      (node id kind span cs).uncut limit parent behind := by
  rw [uncutAll_append, uncutAll_map_token, Bool.true_and, uncutAll, uncutAll, Bool.and_true]
  rfl

end Element

/-- No skipping in the tree was cut short after `limit` rounds. -/
def Tree.uncut (limit : Nat) (tree : Tree) : Bool :=
  Element.uncutAll limit tree.root.kind [] tree.root.children

end Blueprint
