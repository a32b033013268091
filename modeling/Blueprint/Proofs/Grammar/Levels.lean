import Blueprint.Grammar.Value
import Blueprint.Proofs.Tree.Symbols

/-!
# Levels of the grammar

The rules of one level use those of the next for what lies deeper. Whatever a level passes on is
shown of all of them at once (`Inner.satisfies_innerAt`), by induction on the room that is left, so
that a proof about values or chains of references looks at a single level.
-/

namespace Blueprint

open NodeKind

namespace NodeKind

theorem levels_variableRefExpr {above : List NodeKind}
    (h : above.head? ≠ some .variableRefExpr) :
    levels (.variableRefExpr :: .value :: above) = levels above := by
  cases above with
  | nil => rfl
  | cons k above =>
    cases k with
    | variableRefExpr => exact absurd rfl h
    | _ => rfl

/-- A node that lies one level deeper takes up one level of the room. -/
theorem levels_cons_add {k : NodeKind} {above : List NodeKind} {room depth : Nat}
    (hk : k.opensLevel above = true) (h : levels above + (room + 1) = depth) :
    levels (k :: above) + room = depth := by
  rw [levels, if_pos hk, Nat.add_assoc, Nat.add_comm 1]
  exact h

end NodeKind

namespace Inner

section
variable (limits : Limits) (V : List NodeKind → Rule Outcome → Prop)
  (L : List NodeKind → (Nat → Rule Bool) → Prop)

/-- The rule for values satisfies `V` and the one for chains of references `L`, below every path
that leaves them `room` levels; without rules there is no room. -/
inductive Satisfies : Option Inner → Nat → Prop
  | none : Satisfies none 0
  | some {rules : Inner} {room : Nat} :
    (∀ above : List NodeKind, above.head? ≠ some .variableRefExpr →
      levels above + room = limits.maxDepth → V above rules.value) →
    (∀ above : List NodeKind, levels (.variableRefExpr :: above) + room = limits.maxDepth →
      L above rules.links) →
    Satisfies (some rules) (room + 1)

end

variable {limits : Limits} {V : List NodeKind → Rule Outcome → Prop}
  {L : List NodeKind → (Nat → Rule Bool) → Prop}

/-- There are rules for the next level just when the depth limit leaves one. -/
theorem Satisfies.isSome_iff {inner : Option Inner} {room : Nat} {above : List NodeKind}
    (H : Satisfies limits V L inner room) (hroom : levels above + room = limits.maxDepth) :
    inner.isSome = true ↔ levels above < limits.maxDepth := by
  cases H with
  | none => exact iff_of_false nofun (Nat.not_lt.2 (Nat.le_of_eq hroom.symm))
  | some => exact iff_of_true rfl (hroom ▸ Nat.lt_add_of_pos_right (Nat.succ_pos _))

/-- What each level has from the next one, all of them have. -/
theorem satisfies_innerAt
    (hvalue : ∀ {inner room above}, Satisfies limits V L inner room →
      above.head? ≠ some .variableRefExpr → levels above + room = limits.maxDepth →
      V above (Rule.value limits inner))
    (hlinks : ∀ {inner room above}, Satisfies limits V L inner room →
      levels (.variableRefExpr :: above) + room = limits.maxDepth →
      L above (Rule.links limits inner)) (room : Nat) :
    Satisfies limits V L (innerAt limits room) room := by
  induction room with
  | zero => exact .none
  | succ room ih =>
    exact .some (fun _ habove hroom => hvalue ih habove hroom) fun _ hroom => hlinks ih hroom

end Inner

end Blueprint
