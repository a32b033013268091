import Blueprint.Proofs.Tree.Tight
import Blueprint.Proofs.Tree.Tiles

/-!
# Trees that sketches determine

In a snug forest no node starts or stops with trivia. Snug forests over the same tokens with the
same sketch are the same but for the numbers of their nodes (`Snug.unnumberedAll_eq`): trivia has
one place to be, and side by side the ranges have no choice either.
-/

namespace Blueprint

open Token

namespace Element

mutual
/-- The same element with zero as the number of every node. -/
def unnumbered : Element → Element
  | token t => token t
  | node _ k s cs => node 0 k s (unnumberedAll cs)

def unnumberedAll : List Element → List Element
  | [] => []
  | e :: es => e.unnumbered :: unnumberedAll es
end

/-- Forests that are the same but for the numbers of their nodes have as many of them. -/
theorem length_idsAll_eq {es fs : List Element} (h : unnumberedAll es = unnumberedAll fs) :
    (idsAll es).length = (idsAll fs).length := by
  have hlength (es : List Element) : (idsAll es).length = (idsAll (unnumberedAll es)).length := by
    induction es using forest_induction with
    | nil => rfl
    | token t es ih => exact ih
    | node i k s cs es ihc ih =>
      simp only [unnumberedAll, unnumbered, idsAll, ids, List.length_append, List.length_cons,
        ihc, ih]
  rw [hlength, hlength fs, h]

/-- A forest is determined by the numbers of its nodes and what it is without them. -/
theorem eq_of_unnumberedAll {es fs : List Element} (h : unnumberedAll es = unnumberedAll fs)
    (hids : idsAll es = idsAll fs) : es = fs := by
  induction es using forest_induction generalizing fs with
  | nil =>
    cases fs with
    | nil => rfl
    | cons => cases h
  | token t es ih =>
    cases fs with
    | nil => cases h
    | cons f fs =>
      obtain ⟨hhead, hrest⟩ := List.cons.inj h
      cases f with
      | token u =>
        obtain rfl := Element.token.inj hhead
        rw [ih hrest hids]
      | node => cases hhead
  | node i k s cs es ihc ih =>
    cases fs with
    | nil => cases h
    | cons f fs =>
      obtain ⟨hhead, hrest⟩ := List.cons.inj h
      cases f with
      | token => cases hhead
      | node j l u ds =>
        obtain ⟨-, rfl, rfl, hc⟩ := Element.node.inj hhead
        obtain ⟨hnode, hids'⟩ := List.append_inj hids (by simp [ids, length_idsAll_eq hc])
        obtain ⟨rfl, hcs⟩ := List.cons.inj hnode
        rw [ihc hc hcs, ih hrest hids']

/-- Where the elements stop that start at a place is a matter of their tokens. -/
theorem Tiles.eq_after {p q : Position} {es : List Element} (H : Tiles p es q) :
    q = p.after ((leavesAll es).flatMap Token.chars) := by
  induction H with
  | nil => rfl
  | token _ _ ih =>
    rw [leavesAll, leaves, List.flatMap_append, Position.after_append, List.flatMap_singleton]
    exact ih
  | node _ _ ihc ih =>
    rw [leavesAll, leaves, List.flatMap_append, Position.after_append, ← ihc]
    exact ih

/-- Side by side from one place on, ranges have no choice. -/
theorem Tiles.unnumberedAll_eq {p q q' : Position} {es fs : List Element} (T : Tiles p es q)
    (T' : Tiles p fs q') (h : trees es = trees fs) : unnumberedAll es = unnumberedAll fs := by
  induction T generalizing fs q' with
  | nil =>
    cases fs with
    | nil => rfl
    | cons => cases h
  | token _ _ ih =>
    cases T' with
    | nil => cases h
    | token _ T' =>
      obtain ⟨ht, hrest⟩ := List.cons.inj h
      cases ht
      exact congrArg (_ :: ·) (ih T' hrest)
    | node => cases (List.cons.inj h).1
  | @node _ m _ _ _ cs _ Tc _ ihc ih =>
    cases T' with
    | nil => cases h
    | token => cases (List.cons.inj h).1
    | @node _ m' _ _ _ ds _ Td T' =>
      obtain ⟨hnode, hrest⟩ := List.cons.inj h
      obtain ⟨rfl, hc⟩ := Sketch.node.inj hnode
      have hleaves : leavesAll cs = leavesAll ds := by
        rw [← leavesAll_trees, hc, leavesAll_trees]
      have hm : m = m' := by rw [Tc.eq_after, Td.eq_after, hleaves]
      subst hm
      rw [unnumberedAll, unnumberedAll, unnumbered, unnumbered, ihc Td hc, ih T' hrest]

/-- Every node has a token that is no trivia as its first one, and one as its last. -/
inductive Snug : List Element → Prop
  | nil : Snug []
  | token {t : Token} {es : List Element} : Snug es → Snug (.token t :: es)
  | node {i : Nat} {k : NodeKind} {s : Span} {cs es : List Element} :
    (∃ t ∈ (leavesAll cs).head?, t.isTrivia = false) →
    (∃ t ∈ (leavesAll cs).getLast?, t.isTrivia = false) → Snug cs → Snug es →
    Snug (.node i k s cs :: es)

namespace Snug

variable {p q q' : Position} {es fs : List Element}

theorem append (H : Snug es) (H' : Snug fs) : Snug (es ++ fs) := by
  induction H with
  | nil => exact H'
  | token _ ih => exact .token ih
  | node hfirst hlast hc _ _ ih => exact .node hfirst hlast hc ih

theorem map_token (ts : List Token) : Snug (ts.map .token) := by
  induction ts with
  | nil => exact .nil
  | cons t ts ih => exact .token ih

theorem tight (H : Snug es) : Sketch.Tight Token.isTrivia (trees es) := by
  induction H with
  | nil => exact .nil
  | token _ ih => exact .leaf ih
  | node hfirst hlast _ _ ihc ih =>
    refine .node ?_ ?_ ihc ih
    · rwa [leavesAll_trees]
    · rwa [leavesAll_trees]

theorem unnumberedAll_eq (H : Snug es) (H' : Snug fs) (T : Tiles p es q) (T' : Tiles p fs q')
    (hleaves : leavesAll es = leavesAll fs) (hsketches : sketches es = sketches fs) :
    unnumberedAll es = unnumberedAll fs := by
  refine T.unnumberedAll_eq T' (H.tight.eq_of_strip H'.tight ?_ ?_)
  · rw [leavesAll_trees, leavesAll_trees, hleaves]
  · rw [stripAll_trees, stripAll_trees, hsketches]

end Snug

end Element

end Blueprint
