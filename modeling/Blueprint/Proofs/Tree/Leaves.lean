import Blueprint.Proofs.Tree.Balanced

/-!
# The leaves of a regular forest

Below the nodes of a regular forest stand only tokens that occur in the grammar
(`Regular.exists_atom`), and the last one is a token that some node can end with
(`Regular.exists_last`): no operator, and none that waits for a value. Brackets are balanced.
-/

namespace Blueprint

namespace Form

/-- The symbols that words of a pattern can end with. -/
def lasts : Form → List Symbol
  | .zero | .epsilon => []
  | .char x => [x]
  | .plus p q => lasts p ++ lasts q
  | .comp p q => if q.matchEpsilon then lasts p ++ lasts q else lasts q
  | .star p => lasts p

theorem mem_lasts {p : Form} {w : List Symbol} (hw : w ∈ p.matches') :
    ∀ x ∈ w.getLast?, x ∈ p.lasts := by
  induction p generalizing w with
  | zero => cases hw
  | epsilon =>
    cases hw
    intro x hx
    cases hx
  | char a =>
    cases hw
    intro x hx
    cases hx
    exact .head _
  | plus p q hp hq =>
    intro x hx
    exact List.mem_append.2 (hw.imp (hp · x hx) (hq · x hx))
  | comp p q hp hq =>
    obtain ⟨u, hu, v, hv, rfl⟩ := hw
    intro x hx
    rw [lasts]
    rcases Option.or_eq_some_iff.1 (List.getLast?_append ▸ hx) with hx | ⟨hnil, hx⟩
    · have hmem := hq hv x hx
      split
      · exact List.mem_append_right _ hmem
      · exact hmem
    · have hempty : q.matchEpsilon = true := by
        rw [List.getLast?_eq_none_iff.1 hnil] at hv
        exact (q.rmatch_iff_matches' []).2 hv
      rw [hempty, if_pos rfl]
      exact List.mem_append_left _ (hp hu x hx)
  | star p hp =>
    obtain ⟨ws, rfl, hws⟩ := Language.mem_kstar.1 hw
    intro x hx
    rw [List.getLast?_flatten] at hx
    obtain ⟨v, hv, hx⟩ := List.exists_of_findSome?_eq_some hx
    exact hp (hws v (List.mem_reverse.1 hv)) x hx

end Form

namespace Sketch

variable {α : Type} {xs : List (Sketch α)}

/-- A forest without leaves is empty when every node has a leaf. -/
theorem Filled.eq_nil (H : Filled xs) (h : leavesAll xs = []) : xs = [] := by
  cases H with
  | nil => rfl
  | leaf => cases h
  | node hne => exact absurd (List.append_eq_nil_iff.1 h).1 hne

end Sketch

namespace Regular

open Sketch

variable {α : Type} {kind : α → TokenKind} {xs : List (Sketch α)} {a : α}

/-- A leaf stands at the top, or is one that the grammar gives to some node. -/
theorem exists_atom (H : Regular kind (fun _ => False) xs) (ha : a ∈ leavesAll xs) :
    .token (kind a) ∈ symbols kind xs ∨ ∃ k : NodeKind, .token (kind a) ∈ k.whole.atoms := by
  induction H with
  | nil => cases ha
  | leaf _ ih =>
    rcases List.mem_cons.1 ha with rfl | ha
    · exact .inl (.head _)
    · exact (ih ha).imp_left (.tail _)
  | @node k cs xs hw _ _ ihc ih =>
    rcases List.mem_append.1 ha with ha | ha
    · rcases ihc ha with hc | hc
      · exact .inr ⟨k, Form.mem_atoms hw _ hc⟩
      · exact .inr hc
    · exact (ih ha).imp_left (.tail _)
  | bad _ hbad => exact hbad.elim

/-- The last leaf stands last at the top, or is one that some node can end with. -/
theorem exists_last (H : Regular kind (fun _ => False) xs) (ha : a ∈ (leavesAll xs).getLast?) :
    .token (kind a) ∈ (symbols kind xs).getLast? ∨
      ∃ k : NodeKind, .token (kind a) ∈ k.whole.lasts := by
  have hcons {x : Sketch α} {xs : List (Sketch α)}
      (h : .token (kind a) ∈ (symbols kind xs).getLast?) :
      .token (kind a) ∈ (symbols kind (x :: xs)).getLast? := by
    rw [symbols_cons, List.getLast?_cons, h]
    rfl
  induction H with
  | nil => cases ha
  | @leaf b xs H ih =>
    rw [leavesAll, List.getLast?_append] at ha
    rcases Option.or_eq_some_iff.1 ha with ha | ⟨hnil, ha⟩
    · exact (ih ha).imp_left hcons
    · cases (H.filled (by simp)).eq_nil (List.getLast?_eq_none_iff.1 hnil)
      cases ha
      exact .inl rfl
  | @node k cs xs hw _ H ihc ih =>
    rw [leavesAll, List.getLast?_append] at ha
    rcases Option.or_eq_some_iff.1 ha with ha | ⟨-, ha⟩
    · exact (ih ha).imp_left hcons
    · rcases ihc ha with hc | hc
      · exact .inr ⟨k, Form.mem_lasts hw _ hc⟩
      · exact .inr hc
  | bad _ hbad => exact hbad.elim

/-- No token without meaning occurs below the items of a file. -/
theorem kind_ne_error (H : Regular kind (fun _ => False) xs)
    (hxs : symbols kind xs ∈ NodeKind.file.production.matches') (ha : a ∈ leavesAll xs) :
    kind a ≠ .error := by
  intro hkind
  rcases H.exists_atom ha with h | ⟨k, h⟩
  · exact absurd (Form.mem_atoms hxs _ h) (by rw [hkind]; decide)
  · rw [hkind] at h
    cases k <;> exact absurd h (by decide)

/-- The items of a file end with no token that has something after it. -/
theorem last_not_mem (H : Regular kind (fun _ => False) xs)
    (hxs : symbols kind xs ∈ NodeKind.file.production.matches') (ha : a ∈ (leavesAll xs).getLast?) :
    kind a ∉ [TokenKind.equals, .plusEquals, .plus] := by
  intro hkind
  simp only [List.mem_cons, List.not_mem_nil, or_false] at hkind
  rcases H.exists_last ha with h | ⟨k, h⟩
  · have hmem := Form.mem_lasts hxs _ h
    rcases hkind with hkind | hkind | hkind <;> rw [hkind] at hmem <;> exact absurd hmem (by decide)
  · rcases hkind with hkind | hkind | hkind <;> rw [hkind] at h <;> cases k <;>
      exact absurd h (by decide)

/-- The brackets of the items of a file are balanced. -/
theorem balanced_items (H : Regular kind (fun _ => False) xs)
    (hxs : symbols kind xs ∈ NodeKind.file.production.matches') :
    Balanced ((leavesAll xs).map kind) := by
  refine balanced_leavesAll fun x hx => ?_
  cases x with
  | leaf a =>
    have hmem : .token (kind a) ∈ symbols kind xs := List.mem_map_of_mem hx
    have hatom := Form.mem_atoms hxs _ hmem
    rcases List.mem_append.1 hatom with h | h <;> cases List.mem_singleton.1 h
  | node k cs => exact H.balanced_of_mem (by simp) hx

end Regular

end Blueprint
