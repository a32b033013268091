import Blueprint.Proofs.Grammar.Reads.Array

/-!
# Pairs and what they stand in are read
-/

namespace Blueprint

open Element NodeKind Form

/-- Below `above` the rule reads every value. -/
def ReadsValue (limits : Limits) (above : List NodeKind) (r : Rule Outcome) : Prop :=
  ∀ s w rest, Ready limits s → s.kinds = w ++ rest →
    Derives limits.maxDepth above [.node .value] w → Ends rest →
    r.Gives (·.isMatch = true) s rest

namespace Rule

open Ensures

variable {limits : Limits} {above : List NodeKind} {value : Rule Outcome} {s : State}
  {w rest : List TokenKind} {xs : List Symbol}

theorem pair_reads (hvalue : ReadsValue limits (.pair :: above) value) (H : Ready limits s)
    (hk : s.kinds = w ++ rest) (Hw : Derives limits.maxDepth above [.node .pair] w)
    (hrest : Ends rest) : (pair limits value).Reads s rest := by
  obtain ⟨v, rfl, Hv⟩ := Hw.pair
  refine isAt_bind_of_kinds H.wf hk (.view_bind ?_)
  refine Gives.reads (Gives.nodeOutcome ?_)
  refine Reads.bind H.opened (Reads.node (Reads.bump H.opened.opened.wf hk)) fun _ t Ht ht => ?_
  refine Gives.bind Ht (Gives.eat Ht.wf ht) fun ok u hok Hu hu => ?_
  rw [hok]
  refine Gives.bind Hu (hvalue u v rest Hu hu Hv hrest) fun o u' ho Hu' hu' => ?_
  cases o with
  | complete => exact Reads.pure hu'
  | incomplete => exact Reads.pure hu'
  | noMatch => cases ho

/-- What is in braces and not empty starts with a pair. -/
theorem exists_cons_of_members {depth : Nat} {ys : List Symbol}
    (hys : ys ∈ (list (Form.node .pair)).matches') (Hw : Derives depth above ys w) :
    ∃ v, w = .fieldName :: v := by
  obtain ⟨u, v, rfl, Hu⟩ := Hw.exists_item hys
  obtain ⟨u', rfl, -⟩ := Hu.pair
  exact ⟨_, rfl⟩

theorem membersLoop_reads (hvalue : ReadsValue limits (.pair :: above) value) (budget : Nat)
    (found : Bool) (H : Ready limits s) (hk : s.kinds = w ++ .objectEnd :: rest)
    (hxs : xs ∈ (optional (list (Form.node .pair))).matches')
    (Hw : Derives limits.maxDepth above xs w) (hbudget : s.kinds.length ≤ budget) :
    (membersLoop limits value budget found).Reads s (.objectEnd :: rest) := by
  induction budget generalizing s w xs found with
  | zero =>
    have hnil := List.eq_nil_of_length_eq_zero (Nat.le_zero.1 hbudget)
    rw [hnil] at hk
    cases (List.append_eq_nil_iff.1 hk.symm).2
  | succ budget ih =>
    refine .view_bind ?_
    rcases mem_optional.1 hxs with rfl | hxs
    · rw [Derives.nil_iff.1 Hw] at hk
      rw [H.wf.current_of_kinds hk]
      exact Reads.pure hk
    rcases mem_list_iff.1 hxs with rfl | ⟨ys, hys, rfl⟩
    · obtain ⟨v, rfl⟩ := exists_cons_of_members hxs Hw
      rw [H.wf.current_of_kinds hk]
      refine Reads.bind H (pair_reads hvalue H hk Hw (ends_cons nofun)) fun o t Ht ht => ?_
      refine .view_bind ?_
      rw [Ht.wf.current_of_kinds ht]
      exact Reads.pure ht
    · obtain ⟨u, _, rfl, Hu, Hsep⟩ := Derives.node_cons_iff.1 Hw
      obtain ⟨v, rfl, Hv⟩ := Derives.token_cons_iff.1 Hsep
      obtain ⟨u', rfl, -⟩ := Hu.pair
      rw [List.append_assoc] at hk
      rw [H.wf.current_of_kinds hk]
      refine Reads.bind H (pair_reads hvalue H hk Hu (ends_cons nofun)) fun o t Ht ht => ?_
      refine .view_bind ?_
      rw [Ht.wf.current_of_kinds ht]
      refine Reads.bind Ht (Reads.bump Ht.wf ht) fun _ t' Ht' ht' => .bind_pure ?_
      change t'.kinds = v ++ .objectEnd :: rest at ht'
      refine ih true Ht' ht' hys Hv ?_
      rw [hk] at hbudget
      rw [ht']
      simp only [List.cons_append, List.length_cons, List.length_append] at hbudget ⊢
      omega

theorem members_reads (hvalue : ReadsValue limits (.pair :: .members :: above) value)
    (H : Ready limits s) (hk : s.kinds = w ++ .objectEnd :: rest)
    (Hw : Derives limits.maxDepth above [.node .members] w) :
    s.current ∉ [.objectEnd, .eof] ∧ (members limits value).Reads s (.objectEnd :: rest) := by
  obtain ⟨-, ys, hys, Hy⟩ := Hw.exists_production
  refine ⟨?_, Gives.reads (Gives.nodeOutcome (membersLoop_reads hvalue _ _ H.opened hk
    (mem_optional.2 (.inr hys)) Hy H.length_le))⟩
  obtain ⟨v, rfl⟩ := exists_cons_of_members hys Hy
  rw [H.wf.current_of_kinds hk]
  decide

theorem body_reads (hvalue : ReadsValue limits (.pair :: .members :: above) value)
    (H : Ready limits s) (hk : s.kinds = .objectStart :: (w ++ [.objectEnd] ++ rest))
    (hw : w = [] ∨ Derives limits.maxDepth above [.node .members] w) :
    (body limits value).Reads s rest := by
  rw [List.append_assoc] at hk
  refine Gives.bind H (Gives.expect H hk) fun ok t hok Ht ht => ?_
  rw [hok]
  exact closes_reads Ht ht (hw.imp_right fun Hw => members_reads hvalue Ht ht Hw)

end Rule

end Blueprint
