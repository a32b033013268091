import Blueprint.Proofs.Tree.Cut
import Blueprint.Proofs.Tree.Snug

/-!
# Trees truncated at a depth

`Element.truncate` puts an error node in the place of every outermost construct that reaches deeper
than the limit, and `Element.excess` lists these constructs. Sketches of truncated trees are what
`Cut` leaves of sketches (`Cut.sketches_truncateAll`).
-/

namespace Blueprint

open NodeKind

namespace Element

mutual
/-- The element with an error node over its tokens in place of each node that is the first on its
path to reach past the depth. -/
def truncate (depth : Nat) (above : List NodeKind) : Element → Element
  | token t => token t
  | node i k s cs =>
    if k.reach above (symbols cs) ≤ depth then node i k s (truncateAll depth (k :: above) cs)
    else node i .error s ((leavesAll cs).map token)

def truncateAll (depth : Nat) (above : List NodeKind) : List Element → List Element
  | [] => []
  | e :: es => e.truncate depth above :: truncateAll depth above es
end

mutual
/-- The nodes that are the first on their path to reach past the depth, from left to right. -/
def excess (depth : Nat) (above : List NodeKind) : Element → List Element
  | token _ => []
  | node i k s cs =>
    if k.reach above (symbols cs) ≤ depth then excessAll depth (k :: above) cs
    else [node i k s cs]

def excessAll (depth : Nat) (above : List NodeKind) : List Element → List Element
  | [] => []
  | e :: es => e.excess depth above ++ excessAll depth above es
end

variable {depth : Nat} {above : List NodeKind} {es : List Element} {p q : Position}

/-- Truncation keeps the tokens. -/
theorem leavesAll_truncateAll (above : List NodeKind) (es : List Element) :
    leavesAll (truncateAll depth above es) = leavesAll es := by
  induction es using forest_induction generalizing above with
  | nil => rfl
  | token t es ih => rw [truncateAll, truncate, leavesAll, leavesAll, ih]
  | node i k s cs es ihc ih =>
    rw [truncateAll, truncate, leavesAll, leavesAll, ih]
    split
    · rw [leaves, leaves, ihc]
    · rw [leaves, leaves, leavesAll_map_token]

theorem Tiles.map_token (H : Tiles p es q) : Tiles p ((leavesAll es).map .token) q := by
  induction H with
  | nil p => exact .nil p
  | token ht _ ih => exact .token ht ih
  | node _ _ ihc ih =>
    rw [leavesAll, leaves, List.map_append]
    exact ihc.append ih

theorem Tiles.truncateAll (H : Tiles p es q) (above : List NodeKind) :
    Tiles p (truncateAll depth above es) q := by
  induction H generalizing above with
  | nil p => exact .nil p
  | token ht _ ih => exact .token ht (ih above)
  | node hc _ ihc ih =>
    rw [Element.truncateAll, truncate]
    split
    · exact .node (ihc _) (ih above)
    · exact .node hc.map_token (ih above)

theorem Snug.truncateAll (H : Snug es) (above : List NodeKind) :
    Snug (truncateAll depth above es) := by
  induction H generalizing above with
  | nil => exact .nil
  | token _ ih => exact .token (ih above)
  | node hfirst hlast hc _ ihc ih =>
    rw [Element.truncateAll, truncate]
    split
    · refine .node ?_ ?_ (ihc _) (ih above)
      · rwa [leavesAll_truncateAll]
      · rwa [leavesAll_truncateAll]
    · refine .node ?_ ?_ (.map_token _) (ih above)
      · rwa [leavesAll_map_token]
      · rwa [leavesAll_map_token]

end Element

open Element

/-- Cutting a sketch is truncating the tree, and the errors are about the first tokens of the
constructs that are replaced. -/
theorem Cut.sketches_truncateAll {depth : Nat} {above : List NodeKind} {es : List Element}
    {ys : List (Sketch Token)} {errors : List SyntaxError}
    (H : Cut depth (fun _ => False) above (sketches es) ys errors) (hes : Snug es) :
    sketches (truncateAll depth above es) = ys ∧
      List.Forall₂ (fun e c => ∃ t ∈ c.leaves.head?, e = ⟨.nestingTooDeep depth, t.span⟩) errors
        (excessAll depth above es) := by
  induction es using forest_induction generalizing above ys errors with
  | nil =>
    cases H
    exact ⟨rfl, .nil⟩
  | token t es ih =>
    cases hes with | token hes =>
    cases htrivia : t.isTrivia with
    | true =>
      rw [sketches, sketch, htrivia, if_pos rfl] at H
      rw [truncateAll, truncate, sketches, sketch, htrivia, if_pos rfl]
      exact ih H hes
    | false =>
      rw [sketches, sketch, htrivia, if_neg Bool.false_ne_true] at H
      rw [truncateAll, truncate, sketches, sketch, htrivia, if_neg Bool.false_ne_true]
      cases H with
      | leaf H =>
        obtain ⟨rfl, herrors⟩ := ih H hes
        exact ⟨rfl, herrors⟩
  | node i k s cs es ihc ih =>
    cases hes with | node hfirst _ hcs hes =>
    rw [sketches, sketch] at H
    rw [truncateAll, truncate, excessAll, excess]
    cases H with
    | node hreach _ Hc H =>
      rw [symbols_sketches] at hreach
      obtain ⟨rfl, hc⟩ := ihc Hc hcs
      obtain ⟨rfl, he⟩ := ih H hes
      rw [if_pos hreach, if_pos hreach]
      exact ⟨rfl, List.rel_append hc he⟩
    | deep hreach hleaves H =>
      rw [symbols_sketches] at hreach
      obtain ⟨rfl, he⟩ := ih H hes
      rw [if_neg (Nat.not_le.2 hreach), if_neg (Nat.not_le.2 hreach)]
      rw [leavesAll_sketches] at hleaves
      refine ⟨?_, .cons ?_ he⟩
      · rw [sketches, sketch, sketches_map_token, hleaves]
        rfl
      · obtain ⟨t, ht, htrivia⟩ := hfirst
        obtain ⟨ts, hts⟩ := List.head?_eq_some_iff.1 ht
        rw [hts, Token.significant_cons htrivia] at hleaves
        obtain ⟨rfl, -⟩ := List.cons.inj hleaves
        exact ⟨t, ht, rfl⟩
    | bad _ hbad => exact hbad.elim

end Blueprint
