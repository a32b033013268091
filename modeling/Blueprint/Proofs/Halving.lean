import Mathlib.Data.List.TakeWhile
import Blueprint.Halving

/-!
# Halving finds where a list changes

When a list is cut so that all before the cut satisfies a property and nothing behind it does,
halving the list finds the cut (`partitionPoint_append`).
-/

namespace Blueprint

variable {α : Type} {p : α → Bool}

theorem partitionPoint_append {front back : List α} (hfront : ∀ x ∈ front, p x = true)
    (hback : ∀ x ∈ back, p x = false) : partitionPoint p (front ++ back) = front.length := by
  generalize hxs : front ++ back = xs
  fun_induction partitionPoint p xs generalizing front back with
  | case1 xs hnone =>
    have hlength := List.getElem?_eq_none_iff.1 hnone
    rw [← hxs, List.length_append] at hlength
    omega
  | case2 xs x hx hpx ih =>
    have hlt : xs.length / 2 < front.length := by
      refine Nat.lt_of_not_le fun hle => Bool.false_ne_true ?_
      rw [← hxs, List.getElem?_append_right (hxs ▸ hle)] at hx
      exact (hback x (List.mem_of_getElem? hx)).symm.trans hpx
    have hdrop : front.drop (xs.length / 2 + 1) ++ back = xs.drop (xs.length / 2 + 1) := by
      rw [← List.drop_append_of_le_length hlt, hxs]
    rw [ih (fun y hy => hfront y (List.mem_of_mem_drop hy)) hback hdrop, List.length_drop]
    omega
  | case3 xs x hx hpx ih =>
    have hle : front.length ≤ xs.length / 2 := by
      refine Nat.le_of_not_lt fun hlt => hpx (hfront x ?_)
      rw [← hxs, List.getElem?_append_left (hxs ▸ hlt)] at hx
      exact List.mem_of_getElem? hx
    have htake : (front ++ back).take (xs.length / 2) =
        front ++ back.take (xs.length / 2 - front.length) := by
      rw [List.take_append, List.take_of_length_le hle]
    exact ih hfront (fun y hy => hback y (List.mem_of_mem_take hy)) (htake.symm.trans (by rw [hxs]))

/-- When no element that satisfies a property comes after one that does not, halving counts those
that satisfy it. -/
theorem take_partitionPoint {xs : List α}
    (h : xs.Pairwise fun x y => p y = true → p x = true) :
    xs.take (partitionPoint p xs) = xs.filter p := by
  have hfront : ∀ x ∈ xs.takeWhile p, p x = true := fun x hx => List.mem_takeWhile_imp hx
  have hback : ∀ x ∈ xs.dropWhile p, p x = false := by
    have hsub := h.sublist (List.dropWhile_sublist p)
    have hhead := List.head?_dropWhile_not p xs
    cases hxs : xs.dropWhile p with
    | nil => nofun
    | cons y ys =>
      rw [hxs] at hsub hhead
      have hy : p y = false := hhead
      intro x hx
      rcases List.mem_cons.1 hx with rfl | hx
      · exact hy
      · exact Bool.eq_false_iff.2 fun hpx =>
          Bool.eq_false_iff.1 hy ((List.pairwise_cons.1 hsub).1 x hx hpx)
  rw [← List.takeWhile_append_dropWhile (p := p) (l := xs), partitionPoint_append hfront hback,
    List.take_left, List.filter_append, List.filter_eq_self.2 hfront, List.filter_eq_nil_iff.2,
    List.append_nil]
  exact fun x hx => Bool.eq_false_iff.1 (hback x hx)

end Blueprint
