import Mathlib.Data.List.Nodup
import Blueprint.Proofs.Tree.Cursors

/-!
# Owners in a forest

In a forest of nodes whose numbers differ and whose tokens differ, every token below the nodes is a
child of one of them, once, and of no other (`exists_owner`).
-/

namespace Blueprint

open Cursor Element

namespace Element

variable {es : List Element}

/-- The number of the node in a forest that the token with a given index is a child of. -/
def ownerAll? (es : List Element) (index : Nat) : Option Nat :=
  ((ownedAll 0 es).find? (·.1.index == index)).map (·.2)

/-- A token is listed with one node. -/
theorem ownedAll_inj (hindex : ((leavesAll es).map Token.index).Nodup) {a b : Token × Nat}
    (ha : a ∈ ownedAll 0 es) (hb : b ∈ ownedAll 0 es) (h : a.1.index = b.1.index) : a = b := by
  rw [← map_fst_ownedAll es 0, List.map_map] at hindex
  exact List.inj_on_of_nodup_map hindex ha hb h

section
variable (htop : es.filterMap asToken? = [])
include htop

/-- Without tokens at its top, a forest has its tokens in its nodes. -/
theorem ownedAll_perm_links : (ownedAll 0 es).Perm ((ofElements [] es).flatMap links) := by
  have h := ownedAll_perm [] es 0
  rwa [htop] at h

theorem mem_leavesAll_iff {t : Token} :
    t ∈ leavesAll es ↔ ∃ c ∈ ofElements [] es, t ∈ c.childTokens := by
  rw [← map_fst_ownedAll es 0, ((ownedAll_perm_links htop).map _).mem_iff, List.map_flatMap,
    List.mem_flatMap]
  refine exists_congr fun c => and_congr_right fun _ => ?_
  rw [links, List.map_map]
  exact ⟨fun h => by simpa using h, fun h => by simpa using h⟩

theorem mem_ownedAll {t : Token} {c : Cursor} (hc : c ∈ ofElements [] es) (ht : t ∈ c.childTokens) :
    (t, c.id) ∈ ownedAll 0 es :=
  (ownedAll_perm_links htop).mem_iff.2 (List.mem_flatMap.2 ⟨c, hc, List.mem_map_of_mem ht⟩)

variable (hids : (idsAll es).Nodup) (hindex : ((leavesAll es).map Token.index).Nodup)
include hids hindex

/-- A token below the nodes of a forest has one owner, which lists it once. -/
theorem exists_owner {t : Token} (ht : t ∈ leavesAll es) :
    ∃ c ∈ ofElements [] es, ownerAll? es t.index = some c.id ∧
      ∀ d ∈ ofElements [] es, d.childTokens.count t = if d = c then 1 else 0 := by
  obtain ⟨c, hc, htc⟩ := (mem_leavesAll_iff htop).1 ht
  have hmem := mem_ownedAll htop hc htc
  refine ⟨c, hc, ?_, fun d hd => ?_⟩
  · obtain ⟨b, hb⟩ := Option.isSome_iff_exists.1 <|
      (List.find?_isSome (p := (·.1.index == t.index))).2 ⟨_, hmem, beq_self_eq_true _⟩
    have hindex' := List.find?_some hb
    simp only [beq_iff_eq] at hindex'
    have hb' := ownedAll_inj hindex (List.mem_of_find?_eq_some hb) hmem hindex'
    rw [ownerAll?, hb, hb', Option.map_some]
  · have hnodup : d.childTokens.Nodup := by
      have h : (ownedAll 0 es).Nodup := by
        rw [← map_fst_ownedAll es 0] at hindex
        exact (hindex.of_map _).of_map _
      have h := ((ownedAll_perm_links htop).nodup_iff.1 h)
      exact ((List.nodup_flatMap.1 h).1 d hd).of_map _
    split
    · next h => exact List.count_eq_one_of_mem hnodup (h ▸ htc)
    · next hne =>
      refine List.count_eq_zero_of_not_mem fun htd => hne ?_
      have h := congrArg Prod.snd (ownedAll_inj hindex (mem_ownedAll htop hd htd) hmem rfl)
      rw [← map_id_ofElements []] at hids
      exact List.inj_on_of_nodup_map hids hd hc h

/-- A token is a child of one node only. -/
theorem eq_of_mem_childTokens {t : Token} {c d : Cursor} (hc : c ∈ ofElements [] es)
    (hd : d ∈ ofElements [] es) (htc : t ∈ c.childTokens) (htd : t ∈ d.childTokens) : c = d := by
  obtain ⟨e, -, -, hcount⟩ :=
    exists_owner htop hids hindex ((mem_leavesAll_iff htop).2 ⟨c, hc, htc⟩)
  have heq {d : Cursor} (hd : d ∈ ofElements [] es) (htd : t ∈ d.childTokens) : d = e := by
    by_contra hne
    have h := hcount d hd
    rw [if_neg hne] at h
    exact List.count_eq_zero.1 h htd
  rw [heq hc htc, heq hd htd]

end

end Element

end Blueprint
