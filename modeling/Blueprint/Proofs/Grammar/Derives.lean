import Blueprint.Grammar.Value
import Blueprint.Proofs.Grammar.Form

/-!
# Derivations

What the grammar derives. A word of symbols derives the kinds of the tokens at the leaves of a
derivation whose nodes follow `NodeKind.production`; no path of the derivation reaches deeper than
`depth`.
-/

namespace Blueprint

open NodeKind

/-- Below a node with the path `above`, the symbols derive the tokens. -/
inductive Derives (depth : Nat) : List NodeKind → List Symbol → List TokenKind → Prop
  | nil {above : List NodeKind} : Derives depth above [] []
  | token {above : List NodeKind} {k : TokenKind} {xs : List Symbol} {w : List TokenKind} :
    Derives depth above xs w → Derives depth above (.token k :: xs) (k :: w)
  | node {above : List NodeKind} {k : NodeKind} {ys xs : List Symbol} {v w : List TokenKind} :
    ys ∈ k.production.matches' → levels (k :: above) ≤ depth → Derives depth (k :: above) ys v →
    Derives depth above xs w → Derives depth above (.node k :: xs) (v ++ w)

namespace Derives

variable {depth : Nat} {above : List NodeKind} {k : NodeKind} {xs ys : List Symbol}
  {v w : List TokenKind}

theorem single (hp : ys ∈ k.production.matches') (hk : levels (k :: above) ≤ depth)
    (H : Derives depth (k :: above) ys v) : Derives depth above [.node k] v := by
  have h := Derives.node hp hk H .nil
  rwa [List.append_nil] at h

theorem append (H : Derives depth above xs v) (H' : Derives depth above ys w) :
    Derives depth above (xs ++ ys) (v ++ w) := by
  induction H with
  | nil => exact H'
  | token _ ih => exact .token (ih H')
  | node hp hk Hc _ _ ih => rw [List.append_assoc]; exact .node hp hk Hc (ih H')

@[simp] theorem nil_iff : Derives depth above [] w ↔ w = [] := by
  refine ⟨fun H => ?_, fun h => h ▸ .nil⟩
  cases H
  rfl

@[simp] theorem token_cons_iff {t : TokenKind} : Derives depth above (.token t :: xs) w ↔
    ∃ v, w = t :: v ∧ Derives depth above xs v := by
  refine ⟨fun H => ?_, fun ⟨v, h, H⟩ => h ▸ .token H⟩
  cases H with
  | token H => exact ⟨_, rfl, H⟩

theorem node_cons_iff : Derives depth above (.node k :: xs) w ↔
    ∃ u v, w = u ++ v ∧ Derives depth above [.node k] u ∧ Derives depth above xs v := by
  refine ⟨fun H => ?_, fun ⟨u, v, h, H, H'⟩ => h ▸ H.append H'⟩
  cases H with
  | node hp hk Hc H => exact ⟨_, _, rfl, .single hp hk Hc, H⟩

theorem exists_production (H : Derives depth above [.node k] w) :
    levels (k :: above) ≤ depth ∧
      ∃ ys ∈ k.production.matches', Derives depth (k :: above) ys w := by
  cases H with
  | node hp hk Hc H =>
    cases H
    rw [List.append_nil]
    exact ⟨hk, _, hp, Hc⟩

/-- A list starts with an item. -/
theorem exists_item (hxs : xs ∈ (Form.list (.node k)).matches') (H : Derives depth above xs w) :
    ∃ u v, w = u ++ v ∧ Derives depth above [.node k] u := by
  rcases Form.mem_list_iff.1 hxs with rfl | ⟨ys, -, rfl⟩
  · exact ⟨w, [], (List.append_nil w).symm, H⟩
  · obtain ⟨u, v, hw, Hu, -⟩ := node_cons_iff.1 H
    exact ⟨u, v, hw, Hu⟩

/-! ### What the kinds derive -/

theorem stringExpr (H : Derives depth above [.node .stringExpr] w) :
    ∃ ys ∈ (Form.many (.token .plus * .token .string)).matches', ∃ v, w = .string :: v ∧
      Derives depth (.stringExpr :: above) ys v := by
  obtain ⟨-, _, ⟨_, rfl, ys, hys, rfl⟩, H'⟩ := H.exists_production
  obtain ⟨v, hw, H''⟩ := token_cons_iff.1 H'
  exact ⟨ys, hys, v, hw, H''⟩

theorem arrayExpr (H : Derives depth above [.node .arrayExpr] w) :
    ∃ ys ∈ (Form.many (.token .plus * .node .array)).matches', ∃ u v, w = u ++ v ∧
      Derives depth (.arrayExpr :: above) [.node .array] u ∧
      Derives depth (.arrayExpr :: above) ys v := by
  obtain ⟨-, _, ⟨_, rfl, ys, hys, rfl⟩, H'⟩ := H.exists_production
  exact ⟨ys, hys, node_cons_iff.1 H'⟩

/-- What stands between an opening and a closing token: nothing, or one node. -/
theorem enclosed {opening closing : TokenKind} {inside : NodeKind} {m : List Symbol}
    (hm : m ∈ (Form.optional (.node inside)).matches')
    (H : Derives depth above (.token opening :: (m ++ [.token closing])) w) :
    ∃ v, w = opening :: (v ++ [closing]) ∧
      (v = [] ∨ Derives depth above [.node inside] v) := by
  obtain ⟨u, rfl, H₁⟩ := token_cons_iff.1 H
  rcases Form.mem_optional.1 hm with rfl | rfl
  · obtain ⟨v, rfl, H₂⟩ := token_cons_iff.1 H₁
    exact ⟨[], by rw [nil_iff.1 H₂]; rfl, .inl rfl⟩
  · obtain ⟨v, _, rfl, H₂, H₃⟩ := node_cons_iff.1 H₁
    obtain ⟨_, rfl, H₄⟩ := token_cons_iff.1 H₃
    exact ⟨v, by rw [nil_iff.1 H₄], .inr H₂⟩

theorem array (H : Derives depth above [.node .array] w) :
    levels (.array :: above) ≤ depth ∧ ∃ v, w = .arrayStart :: (v ++ [.arrayEnd]) ∧
      (v = [] ∨ Derives depth (.array :: above) [.node .elements] v) := by
  obtain ⟨hk, _, ⟨_, ⟨_, rfl, m, hm, rfl⟩, _, rfl, rfl⟩, H'⟩ := H.exists_production
  exact ⟨hk, enclosed hm H'⟩

theorem object (H : Derives depth above [.node .object] w) :
    levels (.object :: above) ≤ depth ∧ ∃ v, w = .objectStart :: (v ++ [.objectEnd]) ∧
      (v = [] ∨ Derives depth (.object :: above) [.node .members] v) := by
  obtain ⟨hk, _, ⟨_, ⟨_, rfl, m, hm, rfl⟩, _, rfl, rfl⟩, H'⟩ := H.exists_production
  exact ⟨hk, enclosed hm H'⟩

theorem arrayElement (H : Derives depth above [.node .arrayElement] w) :
    ∃ k ∈ elementKinds, w = [k] := by
  obtain ⟨-, ys, hys, H'⟩ := H.exists_production
  have hword : ∃ k ∈ elementKinds, ys = [Symbol.token k] := by
    rcases hys with (((hys | hys) | hys) | hys) | hys
    · exact ⟨.string, by decide, hys⟩
    · exact ⟨.bool, by decide, hys⟩
    · exact ⟨.number, by decide, hys⟩
    · exact ⟨.variableName, by decide, hys⟩
    · exact ⟨.link, by decide, hys⟩
  obtain ⟨k, hk, rfl⟩ := hword
  obtain ⟨v, rfl, H''⟩ := token_cons_iff.1 H'
  exact ⟨k, hk, by rw [nil_iff.1 H'']⟩

theorem pair (H : Derives depth above [.node .pair] w) :
    ∃ v, w = .fieldName :: .equals :: v ∧ Derives depth (.pair :: above) [.node .value] v := by
  obtain ⟨-, _, ⟨_, ⟨_, rfl, _, rfl, rfl⟩, _, rfl, rfl⟩, H₁⟩ := H.exists_production
  obtain ⟨u, rfl, H₂⟩ := token_cons_iff.1 H₁
  obtain ⟨v, rfl, H₃⟩ := token_cons_iff.1 H₂
  exact ⟨v, rfl, H₃⟩

/-- A value that is not a reference. -/
inductive Operand (depth : Nat) (above : List NodeKind) : List TokenKind → Prop
  | stringExpr {w : List TokenKind} : Derives depth above [.node .stringExpr] w →
    Operand depth above w
  | arrayExpr {w : List TokenKind} : Derives depth above [.node .arrayExpr] w →
    Operand depth above w
  | object {w : List TokenKind} : Derives depth above [.node .object] w → Operand depth above w
  | bool : Operand depth above [.bool]
  | number : Operand depth above [.number]

theorem value (H : Derives depth above [.node .value] w) :
    Operand depth (.value :: above) w ∨
      Derives depth (.value :: above) [.node .variableRefExpr] w := by
  obtain ⟨-, ys, hys, H'⟩ := H.exists_production
  rcases hys with ((((rfl | rfl) | rfl) | rfl) | rfl) | rfl
  · exact .inl (.stringExpr H')
  · exact .inl (.arrayExpr H')
  · exact .inl (.object H')
  · obtain ⟨v, rfl, H''⟩ := token_cons_iff.1 H'
    rw [nil_iff.1 H'']
    exact .inl .bool
  · obtain ⟨v, rfl, H''⟩ := token_cons_iff.1 H'
    rw [nil_iff.1 H'']
    exact .inl .number
  · exact .inr H'

theorem variableRefExpr (H : Derives depth above [.node .variableRefExpr] w) :
    levels (.variableRefExpr :: above) ≤ depth ∧ (w = [.variableValueRef] ∨
      ∃ v, w = .variableValueRef :: .plus :: v ∧
        Derives depth (.variableRefExpr :: above) [.node .value] v) := by
  obtain ⟨hk, _, ⟨_, rfl, m, hm, rfl⟩, H₁⟩ := H.exists_production
  obtain ⟨u, rfl, H₂⟩ := token_cons_iff.1 H₁
  refine ⟨hk, ?_⟩
  rcases Form.mem_optional.1 hm with rfl | ⟨_, rfl, _, rfl, rfl⟩
  · exact .inl (by rw [nil_iff.1 H₂])
  · obtain ⟨v, rfl, H₃⟩ := token_cons_iff.1 H₂
    exact .inr ⟨v, rfl, H₃⟩

theorem blueprint (H : Derives depth above [.node .blueprint] w) :
    ∃ v, w = .blueprintTypeName :: .objectStart :: (v ++ [.objectEnd]) ∧
      (v = [] ∨ Derives depth (.blueprint :: above) [.node .members] v) := by
  obtain ⟨-, _, ⟨_, ⟨_, ⟨_, rfl, _, rfl, rfl⟩, m, hm, rfl⟩, _, rfl, rfl⟩, H₁⟩ :=
    H.exists_production
  obtain ⟨u, rfl, H₂⟩ := token_cons_iff.1 H₁
  obtain ⟨v, rfl, h⟩ := enclosed hm H₂
  exact ⟨v, rfl, h⟩

theorem variableDef (H : Derives depth above [.node .variable] w) :
    ∃ k v, (k = .equals ∨ k = .plusEquals) ∧ w = .variableName :: k :: v ∧
      Derives depth (.variable :: above) [.node .value] v := by
  obtain ⟨-, _, ⟨_, ⟨_, rfl, m, hm, rfl⟩, _, rfl, rfl⟩, H₁⟩ := H.exists_production
  obtain ⟨u, rfl, H₂⟩ := token_cons_iff.1 H₁
  rcases hm with rfl | rfl
  · obtain ⟨v, rfl, H₃⟩ := token_cons_iff.1 H₂
    exact ⟨_, v, .inl rfl, rfl, H₃⟩
  · obtain ⟨v, rfl, H₃⟩ := token_cons_iff.1 H₂
    exact ⟨_, v, .inr rfl, rfl, H₃⟩

end Derives

end Blueprint
