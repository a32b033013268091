/-! Binary search. -/

namespace Blueprint

/-- How many elements at the front of a list satisfy `p`, found by halving the list. The answer is
right only for a list in which those that satisfy `p` come before those that do not. -/
def partitionPoint {α : Type} (p : α → Bool) (xs : List α) : Nat :=
  match h : xs[xs.length / 2]? with
  | none => 0
  | some x =>
    if p x then xs.length / 2 + 1 + partitionPoint p (xs.drop (xs.length / 2 + 1))
    else partitionPoint p (xs.take (xs.length / 2))
termination_by xs.length
decreasing_by
  all_goals
    have := (List.getElem?_eq_some_iff.1 h).1
    simp only [List.length_drop, List.length_take]
    omega

end Blueprint
