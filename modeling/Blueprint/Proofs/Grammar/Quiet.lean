import Blueprint.Proofs.Grammar.Run

/-!
# Rules that raise nothing

Consuming tokens raises no error, and neither does skipping them. What is skipped was complained
about before.
-/

namespace Blueprint.Rule

variable {α β : Type}

/-- The rule raises no error, wherever it runs. -/
def Quiet (r : Rule α) : Prop := ∀ s, (r s).state.raised = s.raised

namespace Quiet

variable {r : Rule α}

theorem pure {a : α} : (Pure.pure a : Rule α).Quiet := fun _ => rfl

theorem view {f : State → α} : (Rule.view f).Quiet := fun _ => rfl

theorem bind {f : α → Rule β} (h : r.Quiet) (hf : ∀ a, (f a).Quiet) : (r >>= f).Quiet :=
  fun s => (hf _ _).trans (h s)

theorem bump : Rule.bump.Quiet := by
  intro s
  cases h : s.rest with
  | nil => rw [bump_nil h]
  | cons t ts => rw [bump_cons h]; rfl

theorem node {kind : NodeKind} (h : r.Quiet) : (Rule.node kind r).Quiet := by
  intro s
  rw [node_apply]
  exact h s.opened

/-- What raises nothing is made of parts that raise nothing. -/
theorem kept : Kept Quiet where
  pure _ := pure
  view _ := view
  bump := bump
  bind := bind
  node _ h := h.node

end Quiet

end Blueprint.Rule
