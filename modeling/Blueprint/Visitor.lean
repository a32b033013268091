import Blueprint.Tree.Cursor

/-! Visitors: walks over a tree that do something at every element. A visitor may handle kinds of
node on their own, and decides at each node whether the walk goes on below it. -/

namespace Blueprint

/-- What is done at nodes and tokens, on a state `σ`. A handler of a node gets the walk over the
children of the node, to run it or not. -/
structure Visitor (σ : Type) where
  /-- Done at every token that is reached. -/
  onToken : Token → σ → σ := fun _ s => s
  /-- Done at a node whose kind has no handler of its own. -/
  onNode : Cursor → (σ → σ) → σ → σ := fun _ walkChildren s => walkChildren s
  onKind : NodeKind → Option (Cursor → (σ → σ) → σ → σ) := fun _ => none

namespace Visitor

variable {σ : Type}

def handler (v : Visitor σ) (kind : NodeKind) : Cursor → (σ → σ) → σ → σ :=
  (v.onKind kind).getD v.onNode

mutual
/-- Walks over an element; `above` are the nodes above it. -/
def walkElement (v : Visitor σ) (above : List Node) : Element → σ → σ
  | .token t => v.onToken t
  | .node i k s cs =>
    v.handler k ⟨⟨i, k, s, cs⟩, above⟩ (v.walkElements (⟨i, k, s, cs⟩ :: above) cs)

def walkElements (v : Visitor σ) (above : List Node) : List Element → σ → σ
  | [], s => s
  | e :: es, s => v.walkElements above es (v.walkElement above e s)
end

/-- Walks over a node and what is below it. -/
def walk (v : Visitor σ) (c : Cursor) (s : σ) : σ := v.walkElement c.above c.node.toElement s

end Visitor

end Blueprint
