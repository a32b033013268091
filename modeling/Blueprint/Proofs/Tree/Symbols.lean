import Blueprint.Proofs.Tree.Cursors

/-!
# Trees by their kinds

What the grammar says about a tree is a matter of kinds. The children of a node are a word of
symbols, trivia left out, and the nodes above it are a path of kinds, the parent first. A condition
on a node, its path and its word holds `Everywhere` in a forest, or what is the same at every cursor
(`Everywhere.of_mem_ofElements`).
-/

namespace Blueprint

/-- A child of a node, by its kind. -/
inductive Symbol where
  | token (kind : TokenKind)
  | node (kind : NodeKind)
deriving DecidableEq, Repr

namespace NodeKind

/-- A node of the kind, with `above` as its path, lies one level deeper than its parent. -/
def opensLevel : NodeKind → List NodeKind → Bool
  | .object, _ => true
  | .array, _ => true
  | .variableRefExpr, .value :: .variableRefExpr :: _ => true
  | _, _ => false

/-- How deep a path reaches. -/
def levels : List NodeKind → Nat
  | [] => 0
  | k :: above => levels above + if k.opensLevel above then 1 else 0

end NodeKind

namespace Element

/-- What an element counts as among its siblings. Trivia counts as nothing. -/
def symbol? : Element → Option Symbol
  | .token t => if t.isTrivia then none else some (.token t.kind)
  | .node _ k _ _ => some (.node k)

/-- The word of a forest. -/
def symbols (es : List Element) : List Symbol := es.filterMap symbol?

@[simp] theorem symbols_append (es fs : List Element) :
    symbols (es ++ fs) = symbols es ++ symbols fs := List.filterMap_append

theorem symbols_token {t : Token} (h : t.isTrivia = false) :
    symbols [.token t] = [.token t.kind] := by
  simp only [symbols, List.filterMap_cons, List.filterMap_nil, symbol?, h, Bool.false_eq_true,
    if_false]

@[simp] theorem symbols_node (i : Nat) (k : NodeKind) (s : Span) (cs : List Element) :
    symbols [.node i k s cs] = [.node k] := rfl

theorem symbols_map_token {ts : List Token} (h : ∀ t ∈ ts, t.isTrivia = true) :
    symbols (ts.map .token) = [] := by
  rw [symbols, List.filterMap_map, List.filterMap_eq_nil_iff]
  intro t ht
  simp only [Function.comp, symbol?, h t ht, if_true]

end Element

open Element

/-- Every node of a forest below `above` satisfies `P`, which looks at its kind, its path and the
word of its children. -/
inductive Everywhere (P : NodeKind → List NodeKind → List Symbol → Prop) :
    List NodeKind → List Element → Prop
  | nil {above : List NodeKind} : Everywhere P above []
  | token {above : List NodeKind} {t : Token} {es : List Element} : Everywhere P above es →
    Everywhere P above (.token t :: es)
  | node {above : List NodeKind} {i : Nat} {k : NodeKind} {s : Span} {cs es : List Element} :
    P k above (symbols cs) → Everywhere P (k :: above) cs → Everywhere P above es →
    Everywhere P above (.node i k s cs :: es)

namespace Everywhere

variable {P : NodeKind → List NodeKind → List Symbol → Prop} {above : List NodeKind}
  {es fs : List Element}

theorem map_token (ts : List Token) : Everywhere P above (ts.map .token) := by
  induction ts with
  | nil => exact .nil
  | cons t ts ih => exact .token ih

theorem append (H : Everywhere P above es) (H' : Everywhere P above fs) :
    Everywhere P above (es ++ fs) := by
  induction H with
  | nil => exact H'
  | token _ ih => exact .token (ih H')
  | node hP hc _ _ ih => exact .node hP hc (ih H')

theorem of_mem_ofElements {above : List Node} (H : Everywhere P (above.map Node.kind) es)
    {c : Cursor} (hc : c ∈ Cursor.ofElements above es) :
    P c.kind (c.above.map Node.kind) (symbols c.node.children) := by
  induction es using forest_induction generalizing above with
  | nil => cases hc
  | token t es ih =>
    cases H with
    | token H => exact ih H hc
  | node i k s cs es ihc ihe =>
    cases H with
    | node hP Hc He =>
      rcases List.mem_append.1 hc with hc | hc
      · rcases List.mem_cons.1 hc with rfl | hc
        · exact hP
        · exact @ihc (⟨i, k, s, cs⟩ :: above) Hc hc
      · exact ihe He hc

end Everywhere

end Blueprint
