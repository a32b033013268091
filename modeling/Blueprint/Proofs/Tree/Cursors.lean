import Mathlib.Data.List.Perm.Basic
import Blueprint.Tree.Cursor

/-!
# The nodes of a tree at their places

The cursors of a forest, its numbers and its tokens are three listings of one structure. The child
nodes of all cursors, taken together, are the cursors below the top (`ofElements_perm`), and the
child tokens of all cursors, each with the number of its cursor, are the tokens with their owners
(`ownedAll_perm`).
-/

namespace Blueprint

/-- Induction on a forest: a token or a node in front of a forest, and the forest below a node. -/
theorem Element.forest_induction {motive : List Element → Prop} (nil : motive [])
    (token : ∀ t es, motive es → motive (.token t :: es))
    (node : ∀ i k s cs es, motive cs → motive es → motive (.node i k s cs :: es)) :
    ∀ es, motive es
  | [] => nil
  | .token t :: es => token t es (forest_induction nil token node es)
  | .node i k s cs :: es =>
    node i k s cs es (forest_induction nil token node cs) (forest_induction nil token node es)

namespace Cursor

open Element

/-- The cursor at an element that is a node. -/
def atNode? (above : List Node) : Element → Option Cursor
  | .token _ => none
  | .node i k s cs => some ⟨⟨i, k, s, cs⟩, above⟩

/-- The child tokens, each with the number of the node. -/
def links (c : Cursor) : List (Token × Nat) := c.childTokens.map (·, c.id)

theorem childNodes_eq (c : Cursor) :
    c.childNodes = c.node.children.filterMap (atNode? (c.node :: c.above)) := by
  rw [childNodes, children, List.filterMap_map]
  congr 1
  funext e
  cases e <;> rfl

theorem childTokens_eq (c : Cursor) : c.childTokens = c.node.children.filterMap asToken? := by
  rw [childTokens, children, List.filterMap_map]
  congr 1
  funext e
  cases e <;> rfl

theorem parent?_eq_of_mem_childNodes {c p : Cursor} (h : c ∈ p.childNodes) :
    c.parent? = some p := by
  rw [childNodes_eq, List.mem_filterMap] at h
  obtain ⟨e, _, he⟩ := h
  cases e with
  | token => cases he
  | node => cases he; rfl

variable (above : List Node) (es : List Element)

theorem map_id_ofElements : (ofElements above es).map id = idsAll es := by
  induction es using forest_induction generalizing above with
  | nil => rfl
  | token t es ih => simp only [ofElements, ofElement, List.nil_append, ih, idsAll, ids]
  | node i k s cs es ihc ihe =>
    simp only [ofElements, ofElement, List.map_append, List.map_cons, ihc, ihe, idsAll, ids]
    rfl

/-- The cursors of a forest are those at its top and the child nodes of all of them. -/
theorem ofElements_perm :
    (ofElements above es).Perm
      (es.filterMap (atNode? above) ++ (ofElements above es).flatMap childNodes) := by
  induction es using forest_induction generalizing above with
  | nil => exact .refl _
  | token t es ih => exact ih above
  | node i k s cs es ihc ihe =>
    simp only [ofElements, ofElement, List.cons_append, List.filterMap_cons, atNode?,
      List.flatMap_cons, List.flatMap_append, childNodes_eq]
    refine .cons _ (((ihc _).append (ihe _)).trans ?_)
    exact (List.perm_append_comm_assoc _ _ _).trans (by rw [List.append_assoc])

/-- The tokens of a forest with their owners are those at its top and the child tokens of all
nodes. -/
theorem ownedAll_perm (owner : Nat) :
    (ownedAll owner es).Perm
      ((es.filterMap asToken?).map (·, owner) ++ (ofElements above es).flatMap links) := by
  induction es using forest_induction generalizing above owner with
  | nil => exact .refl _
  | token t es ih => exact .cons _ (ih above owner)
  | node i k s cs es ihc ihe =>
    simp only [ofElements, ofElement, List.cons_append, List.filterMap_cons, asToken?,
      List.flatMap_cons, List.flatMap_append, links, childTokens_eq, ownedAll, owned]
    refine ((ihc (⟨i, k, s, cs⟩ :: above) i).append (ihe above owner)).trans ?_
    exact (List.perm_append_comm_assoc _ _ _).trans (by rw [List.append_assoc]; rfl)

theorem map_fst_ownedAll (owner : Nat) : (ownedAll owner es).map (·.1) = leavesAll es := by
  induction es using forest_induction generalizing owner with
  | nil => rfl
  | token t es ih => simp only [ownedAll, owned, List.map_append, ih, leavesAll, leaves]; rfl
  | node i k s cs es ihc ihe =>
    simp only [ownedAll, owned, List.map_append, ihc, ihe, leavesAll, leaves]

/-! ### What is below a node and what is above it -/

theorem mem_descendantTokens {c : Cursor} {t : Token} (ht : t ∈ c.childTokens) :
    t ∈ c.descendantTokens := by
  rw [childTokens_eq, List.mem_filterMap] at ht
  obtain ⟨e, he, het⟩ := ht
  cases e with
  | node => cases het
  | token =>
    cases het
    obtain ⟨es, fs, hsplit⟩ := List.append_of_mem he
    rw [descendantTokens, Node.toElement, leaves, hsplit, leavesAll_append]
    exact List.mem_append_right _ (.head _)

variable {above es}

/-- The tokens below a node of a forest are a part of those of the forest. -/
theorem isInfix_descendantTokens {c : Cursor} (hc : c ∈ ofElements above es) :
    c.descendantTokens <:+: leavesAll es := by
  induction es using forest_induction generalizing above with
  | nil => cases hc
  | token t es ih => exact (ih hc).trans (List.suffix_cons t _).isInfix
  | node i k s cs es ihc ih =>
    rw [ofElements, ofElement] at hc
    rw [leavesAll, leaves]
    rcases List.mem_append.1 hc with hc | hc
    · rcases List.mem_cons.1 hc with rfl | hc
      · exact (List.prefix_append _ _).isInfix
      · exact (ihc hc).trans (List.prefix_append _ _).isInfix
    · exact (ih hc).trans (List.suffix_append _ _).isInfix

/-- What stands above a node of a forest is above the whole forest, or in it and over the node. -/
theorem mem_of_mem_ancestors {a c : Cursor}
    (ha : a ∈ c.ancestors) (hc : c ∈ ofElements above es) :
    a ∈ upward above ∨
      a ∈ ofElements above es ∧ c ∈ ofElements (a.node :: a.above) a.node.children := by
  induction es using forest_induction generalizing above with
  | nil => cases hc
  | token t es ih => exact ih hc
  | node i k s cs es ihc ih =>
    rw [ofElements, ofElement] at hc ⊢
    rcases List.mem_append.1 hc with hc | hc
    · rcases List.mem_cons.1 hc with rfl | hc
      · exact .inl ha
      · rcases ihc hc with h | ⟨h, hover⟩
        · rcases List.mem_cons.1 h with rfl | h
          · exact .inr ⟨.head _, hc⟩
          · exact .inl h
        · exact .inr ⟨List.mem_append_left _ (.tail _ h), hover⟩
    · exact (ih hc).imp_right fun h => ⟨List.mem_append_right _ h.1, h.2⟩

theorem length_upward (path : List Node) : (upward path).length = path.length := by
  induction path with
  | nil => rfl
  | cons p ps ih => exact congrArg (· + 1) ih

/-- The way up from a node of a forest ends with what is above the forest. -/
theorem upward_suffix_ancestors {c : Cursor} (hc : c ∈ ofElements above es) :
    upward above <:+ c.ancestors := by
  induction es using forest_induction generalizing above with
  | nil => cases hc
  | token t es ih => exact ih hc
  | node i k s cs es ihc ih =>
    rw [ofElements, ofElement] at hc
    rcases List.mem_append.1 hc with hc | hc
    · rcases List.mem_cons.1 hc with rfl | hc
      · exact List.suffix_refl _
      · exact (List.suffix_cons _ _).trans (ihc hc)
    · exact ih hc

end Cursor

namespace Tree

open Cursor

variable (tree : Tree)

theorem cursors_eq_cons :
    tree.cursors = tree.cursor :: ofElements [tree.root] tree.root.children := rfl

theorem cursors_eq_ofElements : tree.cursors = ofElements [] [tree.root.toElement] :=
  (List.append_nil _).symm

theorem map_id_cursors : tree.cursors.map Cursor.id = tree.root.toElement.ids := by
  rw [cursors_eq_cons, List.map_cons, map_id_ofElements]
  rfl

/-- Every node but the root is a child node of one node, and listed once there. -/
theorem cursors_perm : tree.cursors.Perm (tree.cursor :: tree.cursors.flatMap childNodes) := by
  rw [cursors_eq_cons, List.flatMap_cons, childNodes_eq]
  exact .cons _ (ofElements_perm _ _)

/-- Every token is a child token of its owner, and listed once there. -/
theorem owned_perm : tree.owned.Perm (tree.cursors.flatMap links) := by
  rw [cursors_eq_cons, List.flatMap_cons, links, childTokens_eq]
  exact ownedAll_perm _ _ _

variable {tree}

theorem mem_cursors_of_mem_childNodes {c p : Cursor} (hp : p ∈ tree.cursors)
    (hc : c ∈ p.childNodes) : c ∈ tree.cursors :=
  tree.cursors_perm.mem_iff.2 (.tail _ (List.mem_flatMap.2 ⟨p, hp, hc⟩))

/-- A node below the root has a parent, which lists it. -/
theorem exists_parent {c : Cursor} (hc : c ∈ tree.cursors) :
    c = tree.cursor ∨ ∃ p ∈ tree.cursors, c.parent? = some p ∧ c ∈ p.childNodes := by
  refine (List.mem_cons.1 (tree.cursors_perm.mem_iff.1 hc)).imp_right fun h => ?_
  obtain ⟨p, hp, hcp⟩ := List.mem_flatMap.1 h
  exact ⟨p, hp, parent?_eq_of_mem_childNodes hcp, hcp⟩

/-- The way up from a node ends with the root. -/
theorem getLast?_ancestors {c : Cursor} (hc : c ∈ tree.cursors) :
    (c :: c.ancestors).getLast? = some tree.cursor := by
  rw [cursors_eq_cons] at hc
  rcases List.mem_cons.1 hc with rfl | hc
  · rfl
  · obtain ⟨way, hway⟩ := upward_suffix_ancestors hc
    rw [← hway, ← List.cons_append]
    exact List.getLast?_concat

/-- The child nodes of a node are the nodes that name it as their parent. -/
theorem mem_childNodes_iff {c p : Cursor} (hc : c ∈ tree.cursors) :
    c ∈ p.childNodes ↔ c.parent? = some p := by
  refine ⟨parent?_eq_of_mem_childNodes, fun h => ?_⟩
  rcases exists_parent hc with rfl | ⟨q, -, hq, hcq⟩
  · cases h
  · cases hq.symm.trans h
    exact hcq

end Tree

end Blueprint
