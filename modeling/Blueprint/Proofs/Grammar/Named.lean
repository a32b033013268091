import Blueprint.Proofs.Grammar.Ensures
import Blueprint.Proofs.Tree.Symbols

/-!
# Pairs have names

The first thing inside a pair is its name, however the rest of the pair went and whatever the limits
are. No other rule builds pairs, so every pair of a file has one (`Rule.names_fileBody`).
-/

namespace Blueprint

open Element

/-- A pair starts with its name. Nothing is said of other nodes. -/
def NodeKind.Named (kind : NodeKind) (_above : List NodeKind) (word : List Symbol) : Prop :=
  kind = .pair → word.head? = some (.node .fieldName)

namespace Rule

variable {α β : Type}

/-- Wherever the rule runs, the pairs that it emits have names. -/
def Names (r : Rule α) : Prop := ∀ s above, Everywhere NodeKind.Named above (r s).emitted

namespace Names

variable {r : Rule α}

theorem pure {a : α} : (Pure.pure a : Rule α).Names := fun _ _ => .nil

theorem view {f : State → α} : (Rule.view f).Names := fun _ _ => .nil

theorem bind {f : α → Rule β} (h : r.Names) (hf : ∀ a, (f a).Names) : (r >>= f).Names :=
  fun s above => (h s above).append (hf _ _ above)

theorem raise {e : SyntaxError} : (Rule.raise e).Names := fun _ _ => .nil

theorem bump : Rule.bump.Names := by
  intro s above
  cases h : s.rest with
  | nil =>
    rw [bump_nil h]
    exact .nil
  | cons t ts =>
    rw [bump_cons h]
    exact (Everywhere.map_token _).append (.token .nil)

/-- A node that is no pair. -/
theorem node {kind : NodeKind} (hkind : kind ≠ .pair) (h : r.Names) : (Rule.node kind r).Names := by
  intro s above
  rw [node_apply]
  exact (Everywhere.map_token _).append (.node (fun hpair => absurd hpair hkind) (h _ _) .nil)

/-- The node for the name comes first, as nothing is pending where a pair was just started. -/
theorem pair {f : Nat × Unit → Rule α} (hf : ∀ a, (f a).Names) :
    (Rule.node .pair (Rule.node .fieldName Rule.bump >>= f)).Names := by
  intro s above
  rw [node_apply]
  refine (Everywhere.map_token _).append (.node (fun _ => ?_) ?_ .nil)
  · rw [bind_apply, symbols_append, node_apply]
    rfl
  · exact (node (by decide) bump).bind hf _ _

theorem inherited : Inherited Names where
  pure _ := pure
  view _ := view
  bump := bump
  bind := bind
  node := node
  raise _ := raise
  pair := pair

end Names

/-- Every pair in a file has a name. -/
theorem names_fileBody (limits : Limits) (room : Nat) : (fileBody limits room).Names := by
  refine (Names.inherited.items limits room _).bind fun _ =>
    Names.inherited.leftover.bind fun _ => ?_
  exact Names.bind (fun _ _ => .map_token _) fun _ _ _ => .token .nil

end Rule

end Blueprint
