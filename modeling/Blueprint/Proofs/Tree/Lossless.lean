import Mathlib.Data.List.Nodup
import Blueprint.Proofs.Grammar.Ensures
import Blueprint.Proofs.Tree.Cursors

/-!
# Nothing is lost

The tree of a text, whatever the text and the limits, holds every token of the text once and in
order, and its nodes are numbered in the order of a walk (`parse_lossless`). The grammar side is two
facts about runs, `Run.leavesAll_append_unattached` and `Run.range_nodes_append_idsAll`; the rest
holds of every tree with these leaves and numbers.
-/

namespace Blueprint

open Cursor Element

/-- The leaves of a tree are its tokens in the order of their indices, its nodes have their places
in a walk as numbers, and tokens and nodes alike are listed once, by the node that they name as
theirs, and by no other. -/
structure Tree.Lossless (tree : Tree) : Prop where
  kind_root : tree.root.kind = .file
  leaves : tree.root.toElement.leaves = tree.tokens
  indices : tree.tokens.map Token.index = List.range tree.tokens.length
  ids : tree.cursors.map Cursor.id = List.range tree.cursors.length
  owner : ∀ t ∈ tree.tokens, ∃ c ∈ tree.cursors, tree.ownerOf? t.index = some c.id
  count_token : ∀ t ∈ tree.tokens, ∀ c ∈ tree.cursors,
    c.childTokens.count t = if tree.ownerOf? t.index = some c.id then 1 else 0
  parent : ∀ c ∈ tree.cursors, c = tree.cursor ∧ c.parent? = none ∨
    ∃ p ∈ tree.cursors, c.parent? = some p
  count_node : ∀ c ∈ tree.cursors, ∀ p ∈ tree.cursors,
    (p.childNodes.map Cursor.id).count c.id = if c.parent? = some p then 1 else 0

namespace Tree

variable {tree : Tree}

/-- The owner of a token is the node that lists it. -/
theorem ownerOf?_eq_some_iff (hindex : (tree.owned.map (·.1.index)).Nodup) {t : Token}
    (ht : t ∈ tree.owned.map (·.1)) {i : Nat} :
    tree.ownerOf? t.index = some i ↔ (t, i) ∈ tree.owned := by
  have hinj : ∀ a ∈ tree.owned, ∀ b ∈ tree.owned, a.1.index = b.1.index → a = b :=
    fun a ha b hb => List.inj_on_of_nodup_map hindex ha hb
  obtain ⟨⟨t', j⟩, hj, rfl⟩ := List.mem_map.1 ht
  obtain ⟨b, hb⟩ := Option.isSome_iff_exists.1 <|
    (List.find?_isSome (p := (·.1.index == (t', j).1.index))).2 ⟨_, hj, beq_self_eq_true _⟩
  have hb' := List.find?_some hb
  simp only [beq_iff_eq] at hb'
  have heq := hinj _ (List.mem_of_find?_eq_some hb) _ hj hb'
  subst heq
  rw [ownerOf?, hb, Option.map_some, Option.some.injEq]
  refine ⟨fun h => h ▸ hj, fun h => ?_⟩
  cases hinj _ h _ hj rfl
  rfl

theorem map_fst_owned (hleaves : tree.root.toElement.leaves = tree.tokens) :
    tree.owned.map (·.1) = tree.tokens :=
  (map_fst_ownedAll tree.root.children tree.root.id).trans hleaves

theorem nodup_index_owned (hleaves : tree.root.toElement.leaves = tree.tokens)
    (hindices : (tree.tokens.map Token.index).Nodup) : (tree.owned.map (·.1.index)).Nodup := by
  have h : tree.owned.map (·.1.index) = (tree.owned.map (·.1)).map Token.index := by
    rw [List.map_map]; rfl
  rwa [h, map_fst_owned hleaves]

section
variable (hleaves : tree.root.toElement.leaves = tree.tokens)
  (hindices : (tree.tokens.map Token.index).Nodup)
include hleaves hindices

/-- The node that has a token as a child owns it. -/
theorem ownerOf?_of_mem_childTokens {c : Cursor} {t : Token} (hc : c ∈ tree.cursors)
    (ht : t ∈ c.childTokens) : tree.ownerOf? t.index = some c.id := by
  have hmem : (t, c.id) ∈ tree.owned :=
    tree.owned_perm.mem_iff.2 (List.mem_flatMap.2 ⟨c, hc, List.mem_map_of_mem ht⟩)
  exact (ownerOf?_eq_some_iff (nodup_index_owned hleaves hindices) (List.mem_map_of_mem hmem)).2 hmem

/-- Every token has an owner. -/
theorem exists_owner {t : Token} (ht : t ∈ tree.tokens) :
    ∃ c ∈ tree.cursors, t ∈ c.childTokens ∧ tree.ownerOf? t.index = some c.id := by
  rw [← map_fst_owned hleaves] at ht
  obtain ⟨⟨u, i⟩, hu, rfl⟩ := List.mem_map.1 ht
  obtain ⟨c, hc, hi⟩ := List.mem_flatMap.1 (tree.owned_perm.mem_iff.1 hu)
  obtain ⟨v, hv, he⟩ := List.mem_map.1 hi
  cases he
  exact ⟨c, hc, hv, ownerOf?_of_mem_childTokens hleaves hindices hc hv⟩

end

section
variable (hids : tree.cursors.map Cursor.id = List.range tree.cursors.length)
include hids

theorem nodup_map_id : (tree.cursors.map Cursor.id).Nodup := hids ▸ List.nodup_range

/-- A number belongs to one node. -/
theorem eq_of_id_eq {c d : Cursor} (hc : c ∈ tree.cursors) (hd : d ∈ tree.cursors)
    (h : c.id = d.id) : c = d :=
  List.inj_on_of_nodup_map (nodup_map_id hids) hc hd h

theorem count_childNodes {c p : Cursor} (hc : c ∈ tree.cursors) (hp : p ∈ tree.cursors) :
    (p.childNodes.map Cursor.id).count c.id = if c.parent? = some p then 1 else 0 := by
  have hnodup : (p.childNodes.map Cursor.id).Nodup := by
    have h := (tree.cursors_perm.map Cursor.id).nodup_iff.1 (nodup_map_id hids)
    rw [List.map_cons, List.map_flatMap] at h
    exact (List.nodup_flatMap.1 (List.nodup_cons.1 h).2).1 p hp
  have hmem : c.id ∈ p.childNodes.map Cursor.id ↔ c.parent? = some p := by
    rw [← mem_childNodes_iff hc, List.mem_map]
    refine ⟨fun ⟨d, hd, h⟩ => ?_, fun h => ⟨c, h, rfl⟩⟩
    rwa [← eq_of_id_eq hids (mem_cursors_of_mem_childNodes hp hd) hc h]
  split
  · next h => exact List.count_eq_one_of_mem hnodup (hmem.2 h)
  · next h => exact List.count_eq_zero_of_not_mem fun h' => h (hmem.1 h')

theorem count_childTokens (hindex : (tree.owned.map (·.1.index)).Nodup) {t : Token}
    (ht : t ∈ tree.owned.map (·.1)) {c : Cursor} (hc : c ∈ tree.cursors) :
    c.childTokens.count t = if tree.ownerOf? t.index = some c.id then 1 else 0 := by
  have hnodup : c.childTokens.Nodup := by
    have h := tree.owned_perm.nodup_iff.1 (List.Nodup.of_map _ hindex)
    exact List.Nodup.of_map _ ((List.nodup_flatMap.1 h).1 c hc)
  have hmem : t ∈ c.childTokens ↔ tree.ownerOf? t.index = some c.id := by
    rw [ownerOf?_eq_some_iff hindex ht, tree.owned_perm.mem_iff, List.mem_flatMap]
    refine ⟨fun h => ⟨c, hc, List.mem_map_of_mem h⟩, fun ⟨d, hd, h⟩ => ?_⟩
    obtain ⟨u, hu, he⟩ := List.mem_map.1 h
    rw [Prod.mk.injEq] at he
    rwa [← eq_of_id_eq hids hd hc he.2, ← he.1]
  split
  · next h => exact List.count_eq_one_of_mem hnodup (hmem.2 h)
  · next h => exact List.count_eq_zero_of_not_mem fun h' => h (hmem.1 h')

end

/-- A tree with the right leaves and numbers is lossless. -/
theorem lossless_of_leaves (hkind : tree.root.kind = .file)
    (hleaves : tree.root.toElement.leaves = tree.tokens)
    (hindices : tree.tokens.map Token.index = List.range tree.tokens.length)
    (hids : ∃ n, tree.root.toElement.ids = List.range n) : tree.Lossless := by
  have hnodup : (tree.tokens.map Token.index).Nodup := hindices ▸ List.nodup_range
  have hids : tree.cursors.map Cursor.id = List.range tree.cursors.length := by
    obtain ⟨n, hn⟩ := hids
    have h := tree.map_id_cursors.trans hn
    have hlen := congrArg List.length h
    rw [List.length_map, List.length_range] at hlen
    rw [h, hlen]
  refine ⟨hkind, hleaves, hindices, hids, ?_, ?_, ?_, ?_⟩
  · intro t ht
    obtain ⟨c, hc, -, howner⟩ := exists_owner hleaves hnodup ht
    exact ⟨c, hc, howner⟩
  · intro t ht c hc
    exact count_childTokens hids (nodup_index_owned hleaves hnodup)
      ((map_fst_owned hleaves).symm ▸ ht) hc
  · intro c hc
    rcases exists_parent hc with rfl | ⟨p, hp, h, -⟩
    · exact .inl ⟨rfl, rfl⟩
    · exact .inr ⟨p, hp, h⟩
  · intro c hc p hp
    exact count_childNodes hids hc hp

end Tree

namespace Rule

variable (limits : Limits) (room : Nat)

/-- The contents of a file are what a run to the end of the tokens emits, and what is left of the
tokens after it. -/
theorem exists_run_fileBody {s : State} (H : s.WF) :
    ∃ es t, Run s es t ∧ t.rest = [] ∧
      fileBody limits room s =
        ⟨(), es ++ t.unattached.map .token, { t with pending := [] }⟩ := by
  let r := contents limits room limits.maxIterations s
  have hitems := Runs.inherited.items limits room limits.maxIterations s
  obtain ⟨hleft, hrest⟩ := leftover_ensures (hitems.wf H)
  have hunattached : r.state.unattached = r.state.pending ++ [r.state.eof] := by
    rw [State.unattached, show r.state.rest = [] from hrest, List.append_nil]
  refine ⟨r.emitted, r.state, hitems.trans hleft, hrest, ?_⟩
  rw [fileBody_apply, hunattached, List.map_append]
  rfl

/-- A file holds the tokens that no node holds yet, and gives its nodes the next numbers. -/
theorem file_holds {s : State} (H : s.WF) :
    (file limits room s).value.toElement.leaves = s.unattached ∧
      ∃ n, List.range s.nodes ++ (file limits room s).value.toElement.ids = List.range n := by
  have hwf : ({ s with nodes := s.nodes + 1 } : State).WF := { H with }
  obtain ⟨es, t, hrun, -, hbody⟩ := exists_run_fileBody limits room hwf
  have hchildren : (file limits room s).value.children = es ++ t.unattached.map .token :=
    congrArg Reply.emitted hbody
  constructor
  · rw [Node.toElement, leaves, hchildren, leavesAll_append, leavesAll_map_token]
    exact hrun.leavesAll_append_unattached
  · refine ⟨t.nodes, ?_⟩
    rw [Node.toElement, ids, hchildren, idsAll_append, idsAll_map_token, List.append_nil,
      ← hrun.range_nodes_append_idsAll, List.range_succ, List.append_assoc]
    rfl

end Rule

/-- The leaves of the tree of a text are its tokens. -/
theorem leaves_parse (source : String) (limits : Limits) :
    (parse source limits).tree.root.toElement.leaves = tokenize source :=
  (Rule.file_holds limits limits.maxDepth (State.wf_ofStream source.toList)).1.trans
    (State.unattached_ofStream _)

/-- The nodes of the tree of a text have different numbers. -/
theorem nodup_ids_parse (source : String) (limits : Limits) :
    (parse source limits).tree.root.toElement.ids.Nodup := by
  obtain ⟨n, hn⟩ :=
    (Rule.file_holds limits limits.maxDepth (State.wf_ofStream source.toList)).2
  have hids : (parse source limits).tree.root.toElement.ids = List.range n := hn
  exact hids ▸ List.nodup_range

/-- The tree of a text is lossless, whatever the limits are. -/
theorem parse_lossless (source : String) (limits : Limits) :
    (parse source limits).tree.tokens = tokenize source ∧
      (parse source limits).tree.Lossless := by
  let s := State.ofStream (TokenStream.ofChars source.toList)
  have H : ({ s with nodes := s.nodes + 1 } : State).WF := { State.wf_ofStream source.toList with }
  obtain ⟨es, t, hrun, -, hbody⟩ := Rule.exists_run_fileBody limits limits.maxDepth H
  have hchildren : (parse source limits).tree.root.children =
      es ++ t.unattached.map .token := congrArg Reply.emitted hbody
  refine ⟨rfl, Tree.lossless_of_leaves rfl ?_ (TokenStream.map_index_toList _) ⟨t.nodes, ?_⟩⟩
  · change Element.leavesAll (parse source limits).tree.root.children = tokenize source
    rw [hchildren, Element.leavesAll_append, Element.leavesAll_map_token,
      hrun.leavesAll_append_unattached]
    exact State.unattached_ofStream _
  · change 0 :: Element.idsAll (parse source limits).tree.root.children = List.range t.nodes
    rw [hchildren, Element.idsAll_append, Element.idsAll_map_token, List.append_nil]
    exact hrun.range_nodes_append_idsAll

end Blueprint
