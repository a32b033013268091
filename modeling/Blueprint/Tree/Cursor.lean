import Blueprint.Halving
import Blueprint.Tree

/-! Whole trees, and cursors: nodes seen at their place in a tree, with the nodes above them. -/

namespace Blueprint

/-- A node taken out of its tree. -/
structure Node where
  id : Nat
  kind : NodeKind
  span : Span
  children : List Element
deriving DecidableEq

namespace Node

def toElement (n : Node) : Element := .node n.id n.kind n.span n.children

end Node

def Element.asNode? : Element → Option Node
  | .token _ => none
  | .node i k s cs => some ⟨i, k, s, cs⟩

/-- The tree of a text: the text, its tokens and the root node. -/
structure Tree where
  source : String
  tokens : List Token
  root : Node
deriving DecidableEq

/-- A node and the nodes above it, the parent first. -/
structure Cursor where
  node : Node
  above : List Node
deriving DecidableEq

namespace Cursor

/-- A child seen at its place: a node with the nodes above it, or a token. -/
inductive Child where
  | node (c : Cursor)
  | token (t : Token)
deriving DecidableEq

def id (c : Cursor) : Nat := c.node.id

def kind (c : Cursor) : NodeKind := c.node.kind

def span (c : Cursor) : Span := c.node.span

def parent? (c : Cursor) : Option Cursor :=
  match c.above with
  | [] => none
  | p :: ps => some ⟨p, ps⟩

/-- The cursors at the nodes of a path that starts with the parent. -/
def upward : List Node → List Cursor
  | [] => []
  | p :: ps => ⟨p, ps⟩ :: upward ps

/-- The nodes above, the parent first. -/
def ancestors (c : Cursor) : List Cursor := upward c.above

def children (c : Cursor) : List Child :=
  c.node.children.map fun
    | .token t => .token t
    | .node i k s cs => .node ⟨⟨i, k, s, cs⟩, c.node :: c.above⟩

def childNodes (c : Cursor) : List Cursor :=
  c.children.filterMap fun
    | .node d => some d
    | .token _ => none

def childTokens (c : Cursor) : List Token :=
  c.children.filterMap fun
    | .node _ => none
    | .token t => some t

/-- The child tokens that are not trivia. -/
def significantTokens (c : Cursor) : List Token := c.childTokens.filter (!·.isTrivia)

def firstChild? (c : Cursor) (kind : NodeKind) : Option Cursor :=
  c.childNodes.find? (·.kind == kind)

def firstToken? (c : Cursor) (kind : TokenKind) : Option Token :=
  c.childTokens.find? (·.kind == kind)

mutual
/-- The nodes of an element at their places, each before those below it. -/
def ofElement (above : List Node) : Element → List Cursor
  | .token _ => []
  | .node i k s cs => ⟨⟨i, k, s, cs⟩, above⟩ :: ofElements (⟨i, k, s, cs⟩ :: above) cs

def ofElements (above : List Node) : List Element → List Cursor
  | [] => []
  | e :: es => ofElement above e ++ ofElements above es
end

theorem sizeAll_childNodes_le (c : Cursor) :
    Element.sizeAll (c.childNodes.map (·.node.toElement)) ≤ Element.sizeAll c.node.children := by
  rw [childNodes, children, List.filterMap_map, List.map_filterMap]
  induction c.node.children with
  | nil => exact Nat.le_refl _
  | cons e es ih =>
    cases e with
    | token t => exact Nat.le_trans ih (Nat.le_add_left _ _)
    | node i k s cs => exact Nat.add_le_add_left ih _

/-- Walks the nodes that wait on a stack, the top first. The child nodes of a node go on top in
their order. -/
def walkNodes : List Cursor → List Cursor
  | [] => []
  | c :: rest => c :: walkNodes (c.childNodes ++ rest)
termination_by stack => Element.sizeAll (stack.map (·.node.toElement))
decreasing_by
  have hchildren := c.sizeAll_childNodes_le
  have hsize : c.node.toElement.size = Element.sizeAll c.node.children + 1 := rfl
  rw [List.map_append, Element.sizeAll_append, List.map_cons, Element.sizeAll]
  omega

/-- The node and all nodes below it, in the order of a walk. -/
def descendants (c : Cursor) : List Cursor := walkNodes [c]

/-- The tokens below the node, from left to right. -/
def descendantTokens (c : Cursor) : List Token := c.node.toElement.leaves

end Cursor

namespace Tree

def cursor (tree : Tree) : Cursor := ⟨tree.root, []⟩

/-- Every node at its place, each before those below it. -/
def cursors (tree : Tree) : List Cursor := Cursor.ofElement [] tree.root.toElement

def node? (tree : Tree) (id : Nat) : Option Cursor := tree.cursors.find? (·.id == id)

/-- The text put together from the tokens. -/
def text (tree : Tree) : String := String.ofList (tree.tokens.flatMap Token.chars)

/-- The part of the source in the range of a node. -/
def textOf (tree : Tree) (c : Cursor) : String :=
  String.ofList (c.span.slice tree.source.toList)

/-- The tokens of the tree from left to right, each with the number of the node above it. -/
def owned (tree : Tree) : List (Token × Nat) := tree.root.toElement.owned tree.root.id

/-- The number of the node that the token with a given index is a child of. -/
def ownerOf? (tree : Tree) (index : Nat) : Option Nat :=
  (tree.owned.find? (·.1.index == index)).map (·.2)

/-- The token that covers a byte offset: the first one to end after it. -/
def tokenAt? (tree : Tree) (offset : Nat) : Option Token :=
  tree.tokens[partitionPoint (·.span.stop ≤ offset) tree.tokens]?.filter (·.span.contains offset)

end Tree

end Blueprint
