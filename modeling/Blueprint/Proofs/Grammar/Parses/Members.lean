import Blueprint.Proofs.Grammar.Parses.Array

/-!
# Pairs and what they stand in are parsed
-/

namespace Blueprint

open NodeKind Form Token Sketch

namespace Rule

namespace Parses

variable {S : Script} {above : List NodeKind} {value : Rule Outcome} {xs cs : List (Sketch Token)}
  {b : Token} {rest : List Token} (hS : S.Sound)
include hS

theorem pair (hvalue : ParsesValue S (.pair :: above) value)
    (H : Regular Token.kind S.bad [.node .pair cs]) (hlevels : levels above ≤ S.limits.maxDepth)
    (hb : b.kind ∈ [TokenKind.separator, .objectEnd]) :
    (Rule.pair S.limits value).Parses S above [.node .pair cs] (b :: rest) fun _ => True := by
  by_cases hbad : S.bad (.node .pair cs)
  · exact hS.parses hvalue hbad hb
  obtain ⟨a, c, vs, rfl, ha, hc, Hv⟩ := H.pair.resolve_left hbad
  refine isAt_bind (k := .fieldName) ha (view_bind_any fun start => ?_)
  have hends : Ends ((b :: rest).map Token.kind) :=
    ends_cons fun h => absurd (h ▸ hb) (by decide)
  have hreach : NodeKind.pair.reach above (symbols Token.kind
      [.node .fieldName [.leaf a], .leaf c, .node .value vs]) ≤ S.limits.maxDepth :=
    (reach_of_ne (by decide) _ _).trans_le hlevels
  refine mono (nodeOutcome (p := fun _ => True) hreach (.inr hbad) ?_) fun _ _ => trivial
  have hname : NodeKind.fieldName.reach (.pair :: above) (symbols Token.kind [.leaf a]) ≤
      S.limits.maxDepth := by
    rw [reach_of_ne (by decide)]
    exact hlevels
  refine bind [.node .fieldName [.leaf a]] [.leaf c, .node .value vs]
    (node hname (.inl (by decide)) bump) fun _ _ => ?_
  refine bind [.leaf c] [.node .value vs] (eat hc) fun ok hok => ?_
  rw [hok]
  refine bind [.node .value vs] [] (hvalue.parses vs _ Hv hends) fun o ho => ?_
  cases o with
  | complete => exact pure trivial
  | incomplete => exact pure trivial
  | noMatch => cases ho

omit hS in
/-- A pair starts with a field name. -/
theorem headD_pair (hS : S.Sound) (H : Regular Token.kind S.bad (.node .pair cs :: xs)) :
    (ahead (.node .pair cs :: xs) rest).headD .eof = .fieldName := by
  rcases H.head.pair with hbad | ⟨a, c, vs, rfl, ha, -⟩
  · obtain ⟨t, ts, hcs, ht⟩ := hS.start cs hbad
    rw [ahead, leavesAll, leaves, hcs]
    exact ht
  · exact ha

theorem membersLoop (hvalue : ParsesValue S (.pair :: above) value) (budget : Nat) (found : Bool)
    (H : Regular Token.kind S.bad xs)
    (hxs : symbols Token.kind xs ∈ (optional (list (Form.node .pair))).matches')
    (hlevels : levels above ≤ S.limits.maxDepth) (hb : b.kind = .objectEnd)
    (hbudget : (leavesAll xs ++ b :: rest).length ≤ budget) :
    (Rule.membersLoop S.limits value budget found).Parses S above xs (b :: rest) fun _ => True := by
  induction budget generalizing xs found with
  | zero =>
    rw [List.length_append, List.length_cons] at hbudget
    omega
  | succ budget ih =>
    rcases mem_optional.1 hxs with hnil | hlist
    · cases (symbols_eq_nil_iff _).1 hnil
      exact current_bind (k := .objectEnd) hb (pure trivial)
    rcases mem_list_iff.1 hlist with h | ⟨w, hw, h⟩
    · obtain ⟨cs, ys, rfl, hys⟩ := (symbols_eq_node_cons_iff _).1 h
      cases (symbols_eq_nil_iff _).1 hys
      refine current_bind (k := .fieldName) (headD_pair hS H) ?_
      refine bind [.node .pair cs] [] (pair hS hvalue H hlevels ?_) fun o _ => ?_
      · exact hb ▸ .tail _ (.head _)
      · exact current_bind (k := .objectEnd) hb (pure trivial)
    · obtain ⟨cs, ys, rfl, hys⟩ := (symbols_eq_node_cons_iff _).1 h
      obtain ⟨c, zs, rfl, hc, rfl⟩ := (symbols_eq_token_cons_iff _).1 hys
      refine current_bind (k := .fieldName) (headD_pair hS H) ?_
      refine bind [.node .pair cs] (.leaf c :: zs) (pair hS hvalue H.head hlevels ?_) fun o _ => ?_
      · exact hc ▸ .head _
      refine current_bind (k := .separator) hc ?_
      refine bind [.leaf c] zs bump fun _ _ => ?_
      refine (ih true H.tail.of_leaf hw ?_).bind_pure fun _ _ => trivial
      simp only [leavesAll, leaves, List.length_append, List.length_cons] at hbudget ⊢
      omega

theorem members (hvalue : ParsesValue S (.pair :: .members :: above) value)
    (H : Regular Token.kind S.bad [.node .members cs]) (hlevels : levels above ≤ S.limits.maxDepth)
    (hb : b.kind = .objectEnd) :
    (Rule.members S.limits value).Parses S above [.node .members cs] (b :: rest) fun _ => True := by
  obtain ⟨hcs, Hcs⟩ := H.of_node (by decide)
  refine (nodeOutcome_flat (p := fun _ => True) hlevels (by decide) ?_).mono fun _ _ => trivial
  have hlevels' : levels (.members :: above) ≤ S.limits.maxDepth := hlevels
  exact of_length (membersLoop hS hvalue _ _ Hcs (mem_optional.2 (.inr hcs)) hlevels' hb)

theorem body (hvalue : ParsesValue S (.pair :: .members :: above) value) {a : Token}
    (ha : a.kind = .objectStart) (hb : b.kind = .objectEnd)
    (hlevels : levels above ≤ S.limits.maxDepth)
    (hxs : xs = [] ∨ ∃ cs, xs = [.node .members cs] ∧
      Regular Token.kind S.bad [.node .members cs]) :
    (Rule.body S.limits value).Parses S above (.leaf a :: (xs ++ [.leaf b])) rest fun _ => True := by
  refine bind [.leaf a] (xs ++ [.leaf b]) (expect ha) fun ok hok => ?_
  rw [hok]
  refine closes hb (hxs.imp_right ?_)
  rintro ⟨cs, rfl, Hcs⟩
  refine ⟨?_, members hS hvalue Hcs hlevels hb⟩
  obtain ⟨hcs, Hcs⟩ := Hcs.of_node (by decide)
  obtain ⟨ds, us, rfl⟩ := exists_node_of_list _ hcs
  have hhead : (ahead [.node .members (.node .pair ds :: us)] (b :: rest)).headD .eof =
      .fieldName := by
    rw [ahead, leavesAll_node]
    exact headD_pair hS Hcs
  rw [hhead]
  decide

end Parses

end Rule

end Blueprint
