import Blueprint.Proofs.Tree.Symbols
import Blueprint.SyntaxError

/-!
# Damaged nodes

A node is damaged when it holds tokens that no rule could use or lacks a part that it is not whole
without. `Reported` is the condition, at every damaged node of a forest, that an error is to be
found near it.
-/

namespace Blueprint

open Element

/-- The child that a node of the kind is not whole without. -/
def NodeKind.essential : NodeKind → Option Symbol
  | .pair | .variable => some (.node .value)
  | .blueprint | .object => some (.token .objectEnd)
  | .array => some (.token .arrayEnd)
  | _ => none

/-- A node of the kind with the given word is damaged. -/
def NodeKind.Damaged (kind : NodeKind) (word : List Symbol) : Prop :=
  kind = .error ∨ ∃ x ∈ kind.essential, x ∉ word

instance (kind : NodeKind) (word : List Symbol) : Decidable (kind.Damaged word) :=
  inferInstanceAs (Decidable (kind = .error ∨ ∃ x ∈ kind.essential, x ∉ word))

namespace Cursor

/-- The start of the node above, when that is a pair. -/
def pairStart : List Node → Option Nat
  | [] => none
  | p :: _ => if p.kind = .pair then some p.span.start else none

def Damaged (c : Cursor) : Prop := c.kind.Damaged (symbols c.node.children)

instance (c : Cursor) : Decidable c.Damaged :=
  inferInstanceAs (Decidable (c.kind.Damaged (symbols c.node.children)))

/-- Where an error about the node starts at the earliest. Tokens that are skipped directly in a pair
are the pair's fault. -/
def blameStart (c : Cursor) : Nat :=
  if c.kind = .error then (pairStart c.above).getD c.span.start else c.span.start

end Cursor

/-- The first token after a range that is not trivia. -/
def Tree.tokenAfter? (tree : Tree) (span : Span) : Option Token :=
  tree.tokens.find? fun t => !t.isTrivia && span.stop ≤ t.span.start

/-- An error starts from `start` on, and not after the first token of `ts` past `stop` that is not
trivia. -/
def Blamed (ts : List Token) (errors : List SyntaxError) (start stop : Nat) : Prop :=
  ∃ t ∈ ts.find? fun t => !t.isTrivia && stop ≤ t.span.start,
    ∃ e ∈ errors, start ≤ e.span.start ∧ e.span.start ≤ t.span.start

/-- Every damaged node of a forest is blamed; `pair` is where the pair starts that the forest is
the inside of. -/
inductive Reported (blamed : Nat → Nat → Prop) : Option Nat → List Element → Prop
  | nil {pair : Option Nat} : Reported blamed pair []
  | token {pair : Option Nat} {t : Token} {es : List Element} : Reported blamed pair es →
    Reported blamed pair (.token t :: es)
  | node {pair : Option Nat} {i : Nat} {k : NodeKind} {s : Span} {cs es : List Element} :
    (k.Damaged (symbols cs) →
      blamed (if k = .error then pair.getD s.start else s.start) s.stop) →
    Reported blamed (if k = .pair then some s.start else none) cs → Reported blamed pair es →
    Reported blamed pair (.node i k s cs :: es)

namespace Reported

variable {blamed blamed' : Nat → Nat → Prop} {pair : Option Nat} {es fs : List Element}

theorem map_token (ts : List Token) : Reported blamed pair (ts.map .token) := by
  induction ts with
  | nil => exact .nil
  | cons t ts ih => exact .token ih

theorem append (H : Reported blamed pair es) (H' : Reported blamed pair fs) :
    Reported blamed pair (es ++ fs) := by
  induction H with
  | nil => exact H'
  | token _ ih => exact .token (ih H')
  | node hdamaged hc _ _ ih => exact .node hdamaged hc (ih H')

theorem mono (H : Reported blamed pair es) (h : ∀ start stop, blamed start stop →
    blamed' start stop) : Reported blamed' pair es := by
  induction H with
  | nil => exact .nil
  | token _ ih => exact .token ih
  | node hdamaged _ _ ihc ih => exact .node (fun hd => h _ _ (hdamaged hd)) ihc ih

theorem of_mem_ofElements {above : List Node} (H : Reported blamed (Cursor.pairStart above) es)
    {c : Cursor} (hc : c ∈ Cursor.ofElements above es) (hd : c.Damaged) :
    blamed c.blameStart c.span.stop := by
  induction es using forest_induction generalizing above with
  | nil => cases hc
  | token t es ih =>
    cases H with
    | token H => exact ih H hc
  | node i k s cs es ihc ihe =>
    cases H with
    | node hdamaged Hc He =>
      rcases List.mem_append.1 hc with hc | hc
      · rcases List.mem_cons.1 hc with rfl | hc
        · exact hdamaged hd
        · exact @ihc (⟨i, k, s, cs⟩ :: above) Hc hc
      · exact ihe He hc

end Reported

end Blueprint
