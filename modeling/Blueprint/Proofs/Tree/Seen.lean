import Blueprint.View
import Blueprint.Proofs.Tree.Cursors
import Blueprint.Proofs.Tree.Sketch

/-!
# Views and trivia

The questions of a view look through trivia: its answers are read off the sketch of its node
(`Cursor.sketch`). A child node that is the only one is found whatever stands around it
(`View.exists_only`), and the tokens are those of the sketch.
-/

namespace Blueprint

open Element

namespace Sketch

variable {α : Type}

/-- The value of a leaf. -/
def leaf? : Sketch α → Option α
  | leaf a => some a
  | node .. => none

/-- A sketch that is no leaf. -/
def node? : Sketch α → Option (Sketch α)
  | leaf _ => none
  | node k cs => some (node k cs)

end Sketch

namespace Cursor

theorem as?_eq_some_iff {c : Cursor} {kind : NodeKind} {v : View kind} :
    c.as? kind = some v ↔ v.cursor = c := by
  obtain ⟨d, rfl⟩ := v
  rw [as?]
  split
  · next h => rw [Option.some.injEq, View.mk.injEq, eq_comm]
  · next h => exact ⟨nofun, fun heq => absurd (congrArg Cursor.kind heq.symm) h⟩

/-- The node with all below it, without trivia. -/
def sketch (c : Cursor) : Sketch Token := .node c.kind (sketches c.node.children)

theorem significantTokens_eq (c : Cursor) :
    c.significantTokens = (sketches c.node.children).filterMap Sketch.leaf? := by
  rw [significantTokens, childTokens_eq]
  induction c.node.children with
  | nil => rfl
  | cons e es ih =>
    rw [sketches, List.filterMap_append, ← ih]
    cases e with
    | node => rfl
    | token t =>
      rw [List.filterMap_cons_some (by rfl : asToken? (.token t) = some t), Element.sketch]
      cases ht : t.isTrivia with
      | true => simp [ht]
      | false => simp [ht, Sketch.leaf?]

theorem map_sketch_childNodes (c : Cursor) :
    c.childNodes.map sketch = (sketches c.node.children).filterMap Sketch.node? := by
  rw [childNodes_eq]
  induction c.node.children with
  | nil => rfl
  | cons e es ih =>
    rw [sketches, List.filterMap_append, ← ih]
    cases e with
    | node => rfl
    | token t =>
      rw [List.filterMap_cons_none (by rfl), Element.sketch]
      cases ht : t.isTrivia <;> simp [Sketch.node?]

/-- A question that trivia does not answer, put to the children of a node that has no other tokens. -/
theorem findSome?_children {β : Type} {c : Cursor} {f : Child → Option β}
    (hf : ∀ t, t.isTrivia = true → f (.token t) = none) (hc : c.significantTokens = []) :
    c.children.findSome? f = c.childNodes.findSome? fun d => f (.node d) := by
  have htrivia : ∀ t, Child.token t ∈ c.children → t.isTrivia = true := by
    intro t ht
    have hmem : t ∈ c.childTokens := List.mem_filterMap.2 ⟨_, ht, rfl⟩
    simpa using List.filter_eq_nil_iff.1 hc t hmem
  rw [childNodes]
  generalize c.children = xs at htrivia ⊢
  induction xs with
  | nil => rfl
  | cons x xs ih =>
    have hrest := ih fun t ht => htrivia t (.tail _ ht)
    cases x with
    | node d =>
      rw [List.findSome?_cons, List.filterMap_cons_some (by rfl), List.findSome?_cons, hrest]
    | token t =>
      rw [List.findSome?_cons, hf t (htrivia t (.head _)), List.filterMap_cons_none (by rfl)]
      exact hrest

end Cursor

namespace View

variable {kind k : NodeKind}

/-- What stands below the node of a view, without trivia. -/
def contents (v : View kind) : List (Sketch Token) := sketches v.cursor.node.children

/-- The only child node of a view. -/
theorem exists_only {v : View kind} {cs : List (Sketch Token)}
    (h : v.contents.filterMap Sketch.node? = [.node k cs]) :
    ∃ d : View k, d.contents = cs ∧ v.cursor.childNodes = [d.cursor] ∧ v.child? k = some d ∧
      v.children k = [d] := by
  obtain ⟨c, hc, hsketch⟩ := List.map_eq_singleton_iff.1 ((Cursor.map_sketch_childNodes _).trans h)
  obtain ⟨hkind, hcs⟩ := Sketch.node.inj hsketch
  have has : c.as? k = some ⟨c, hkind⟩ := Cursor.as?_eq_some_iff.2 rfl
  refine ⟨⟨c, hkind⟩, hcs, hc, ?_, ?_⟩
  · rw [child?, hc, List.findSome?_cons, has]
  · simp only [children, hc, List.filterMap_cons, has, List.filterMap_nil]

/-- A child of a kind is an element of the node. -/
theorem toElement_mem_of_mem_children {v : View kind} {k : NodeKind} {w : View k}
    (hw : w ∈ v.children k) : w.cursor.node.toElement ∈ v.cursor.node.children := by
  rw [children, Cursor.childNodes_eq, List.mem_filterMap] at hw
  obtain ⟨c, hc, hw⟩ := hw
  obtain ⟨e, he, hc⟩ := List.mem_filterMap.1 hc
  cases e with
  | token => cases hc
  | node =>
    cases hc
    rwa [Cursor.as?_eq_some_iff.1 hw]

/-- What holds between the ranges of elements holds between those of the children of a kind. -/
theorem pairwise_children {v : View kind} {k : NodeKind} {r : Span → Span → Prop}
    (h : v.cursor.node.children.Pairwise fun a b => r a.span b.span) :
    (v.children k).Pairwise fun a b => r a.span b.span := by
  rw [children, Cursor.childNodes_eq, List.pairwise_filterMap, List.pairwise_filterMap]
  refine h.imp fun {a b} hab c hc d hd v hv w hw => ?_
  obtain rfl := Cursor.as?_eq_some_iff.1 hv
  obtain rfl := Cursor.as?_eq_some_iff.1 hw
  cases a with
  | token => cases hc
  | node =>
    cases b with
    | token => cases hd
    | node =>
      rw [View.span, View.span, ← Option.some.inj hc, ← Option.some.inj hd]
      exact hab

/-- The first token of a kind. -/
theorem token?_eq (v : View kind) {k : TokenKind} (hk : k.isTrivia = false) :
    v.token? k = (v.contents.filterMap Sketch.leaf?).find? (·.kind == k) := by
  rw [contents, ← Cursor.significantTokens_eq, Cursor.significantTokens, List.find?_filter, token?,
    Cursor.firstToken?]
  congr 1
  funext t
  cases ht : t.kind == k with
  | true => simp [Token.isTrivia, beq_iff_eq.1 ht, hk]
  | false => simp

end View

theorem StringView.parts_eq (v : StringView) :
    StringView.parts v = (v.contents.filterMap Sketch.leaf?).filter (·.kind == .string) := by
  rw [View.contents, ← Cursor.significantTokens_eq, Cursor.significantTokens, List.filter_filter,
    StringView.parts]
  congr 1
  funext t
  cases ht : t.kind == .string with
  | true => simp [Token.isTrivia, beq_iff_eq.1 ht, TokenKind.isTrivia]
  | false => simp

/-- The form of a value that has a node below it. -/
theorem ValueView.form?_eq {v : ValueView} {k : NodeKind} {d : View k}
    (hnode : v.cursor.childNodes = [d.cursor]) (hleaf : v.contents.filterMap Sketch.leaf? = []) :
    ValueView.form? v = ValueForm.ofChild? (.node d.cursor) := by
  have htrivia : ∀ t : Token, t.isTrivia = true → ValueForm.ofChild? (.token t) = none := by
    intro t ht
    rw [ValueForm.ofChild?]
    split
    · next h => rw [Token.isTrivia, h] at ht; cases ht
    · next h => rw [Token.isTrivia, h] at ht; cases ht
    · rfl
  rw [ValueView.form?, Cursor.findSome?_children htrivia ((Cursor.significantTokens_eq _).trans hleaf),
    hnode, List.findSome?_cons, List.findSome?_nil]
  cases ValueForm.ofChild? (.node d.cursor) <;> rfl

end Blueprint
