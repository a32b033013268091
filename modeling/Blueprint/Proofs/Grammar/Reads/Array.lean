import Blueprint.Proofs.Grammar.Reads
import Blueprint.Proofs.Grammar.Fits.Array

/-!
# Strings and arrays are read
-/

namespace Blueprint

open Element NodeKind Form

/-- What comes next does not go on as a chain of `+`. -/
def Ends (rest : List TokenKind) : Prop := rest.head? ≠ some .plus

theorem ends_cons {k : TokenKind} {ks : List TokenKind} (h : k ≠ .plus) : Ends (k :: ks) :=
  fun he => h (Option.some.inj he)

namespace State.WF

variable {s : State} {k k' : TokenKind} {ks : List TokenKind}

theorem not_at_plus (H : s.WF) (h : Ends s.kinds) (b : Bool) :
    ¬ (s.current == .plus && b) = true := by
  rw [Bool.and_eq_true, beq_iff_eq, H.current_eq_headD]
  rintro ⟨hc, -⟩
  cases hs : s.kinds with
  | nil => rw [hs] at hc; cases hc
  | cons k ks => rw [hs] at hc h; exact h (congrArg some hc)

theorem at_two (H : s.WF) (h : s.kinds = k :: k' :: ks) :
    (s.current == k && s.nth 1 == k') = true := by
  rw [H.current_eq_headD, State.nth_eq_getD, h]
  simp only [List.headD_cons, List.getD_cons_succ, List.getD_cons_zero, beq_self_eq_true,
    Bool.and_self]

theorem atTail (H : s.WF) (h : s.kinds = .plus :: k :: ks) (hk : k ∈ valueStart) :
    s.atTail = true := by
  rw [State.atTail, H.current_eq_headD, State.nth_eq_getD, h]
  exact List.contains_iff_mem.2 hk

end State.WF

namespace Rule

open Ensures

variable {α : Type} {limits : Limits} {depth : Nat} {above : List NodeKind} {s : State}
  {k : TokenKind} {ks w rest : List TokenKind} {xs : List Symbol}

/-- What goes on with a `+` ends where none comes next. -/
theorem ends_reads {f : State → Bool} {r : Rule α} {a : α} (H : Ready limits s)
    (hk : s.kinds = rest) (hrest : Ends rest) :
    (do if ← view fun s => s.current == .plus && f s then r else return a : Rule α).Reads s rest :=
  .view_bind <| .ite (fun h => absurd h (H.wf.not_at_plus (hk ▸ hrest) _)) fun _ => Reads.pure hk

/-! ### Strings -/

theorem stringTail_reads (budget : Nat) (H : Ready limits s) (hk : s.kinds = w ++ rest)
    (hxs : xs ∈ (many (token .plus * token .string)).matches') (Hw : Derives depth above xs w)
    (hrest : Ends rest) (hbudget : s.kinds.length ≤ budget) : (stringTail budget).Reads s rest := by
  induction budget generalizing s w xs with
  | zero =>
    have hnil := List.eq_nil_of_length_eq_zero (Nat.le_zero.1 hbudget)
    refine ends_reads H ?_ hrest
    rw [hnil] at hk
    rw [hnil, (List.append_eq_nil_iff.1 hk.symm).2]
  | succ budget ih =>
    rcases mem_many_iff.1 hxs with rfl | ⟨_, ⟨_, rfl, _, rfl, rfl⟩, ys, hys, rfl⟩
    · rw [Derives.nil_iff.1 Hw, List.nil_append] at hk
      exact ends_reads H hk hrest
    · obtain ⟨u, rfl, Hu⟩ := Derives.token_cons_iff.1 Hw
      obtain ⟨v, rfl, Hv⟩ := Derives.token_cons_iff.1 Hu
      refine .view_bind <| .ite (fun _ => ?_) fun h => absurd (H.wf.at_two hk) h
      refine Reads.bind H (.bump H.wf hk) fun _ t Ht ht => ?_
      refine Reads.bind Ht (.bump Ht.wf ht) fun _ u Hu hu => ?_
      refine ih Hu hu hys Hv ?_
      rw [hk] at hbudget
      rw [hu]
      exact Nat.le_of_succ_le (Nat.le_of_succ_le_succ hbudget)

theorem stringExpr_reads (H : Ready limits s) (hk : s.kinds = w ++ rest)
    (Hw : Derives depth above [.node .stringExpr] w) (hrest : Ends rest) :
    (stringExpr limits).Reads s rest := by
  obtain ⟨ys, hys, v, rfl, Hv⟩ := Hw.stringExpr
  refine isAt_bind_of_kinds H.wf hk ?_
  refine Gives.reads (Gives.nodeOutcome ?_)
  refine Reads.bind H.opened (.bump H.opened.wf hk) fun _ t Ht ht => .bind_pure ?_
  exact stringTail_reads _ Ht ht hys Hv hrest Ht.length_le

/-! ### Arrays -/

theorem arrayElement_gives (H : Ready limits s) (hk : s.kinds = w ++ rest)
    (Hw : Derives depth above [.node .arrayElement] w) :
    arrayElement.Gives (·.isMatch = true) s rest := by
  obtain ⟨k, hmem, rfl⟩ := Hw.arrayElement
  have hc : s.current = k := H.wf.current_of_kinds hk
  refine .view_bind <| .ite (fun _ => ?_) fun h => ?_
  · exact Gives.nodeOutcome (Reads.bind_pure (Reads.bump H.opened.wf hk))
  · exact absurd (List.contains_iff_mem.2 (hc ▸ hmem)) h

/-- An array that is not empty starts with an element. -/
theorem exists_cons_of_elements {ys : List Symbol}
    (hys : ys ∈ (list (Form.node .arrayElement)).matches') (Hw : Derives depth above ys w) :
    ∃ k ∈ elementKinds, ∃ v, w = k :: v := by
  obtain ⟨u, v, rfl, Hu⟩ := Hw.exists_item hys
  obtain ⟨k, hk, rfl⟩ := Hu.arrayElement
  exact ⟨k, hk, v, rfl⟩

theorem elementsLoop_reads (budget : Nat) (H : Ready limits s)
    (hk : s.kinds = w ++ .arrayEnd :: rest) (hxs : xs ∈ (list (Form.node .arrayElement)).matches')
    (Hw : Derives depth above xs w) (hbudget : s.kinds.length ≤ budget) :
    (elementsLoop limits budget).Reads s (.arrayEnd :: rest) := by
  induction budget generalizing s w xs with
  | zero =>
    have hnil := List.eq_nil_of_length_eq_zero (Nat.le_zero.1 hbudget)
    rw [hnil] at hk
    cases (List.append_eq_nil_iff.1 hk.symm).2
  | succ budget ih =>
    rcases mem_list_iff.1 hxs with rfl | ⟨ys, hys, rfl⟩
    · refine Gives.bind H (arrayElement_gives H hk Hw) fun o t ho Ht ht => ?_
      rw [ho]
      refine .view_bind ?_
      rw [Ht.wf.current_of_kinds ht]
      exact Reads.pure ht
    · obtain ⟨u, _, rfl, Hu, Hsep⟩ := Derives.node_cons_iff.1 Hw
      obtain ⟨v, rfl, Hv⟩ := Derives.token_cons_iff.1 Hsep
      rw [List.append_assoc] at hk
      refine Gives.bind H (arrayElement_gives H hk Hu) fun o t ho Ht ht => ?_
      rw [ho]
      refine .view_bind ?_
      rw [Ht.wf.current_of_kinds ht]
      refine Reads.bind Ht (.bump Ht.wf ht) fun _ t' Ht' ht' => ?_
      rcases mem_optional.1 hys with rfl | hys
      · rw [Derives.nil_iff.1 Hv] at ht'
        exact isAt_bind_of_kinds Ht'.wf ht' (Reads.pure ht')
      · refine isAt_bind (fun h => ?_) fun _ => ih Ht' ht' hys Hv ?_
        · obtain ⟨k, hmem, v, rfl⟩ := exists_cons_of_elements hys Hv
          rw [Ht'.wf.current_of_kinds ht'] at h
          rw [h] at hmem
          exact absurd hmem (by decide)
        · obtain ⟨k, -, rfl⟩ := Hu.arrayElement
          rw [hk] at hbudget
          rw [ht']
          exact Nat.le_of_succ_le (Nat.le_of_succ_le_succ hbudget)

theorem elements_reads (H : Ready limits s) (hk : s.kinds = w ++ .arrayEnd :: rest)
    (Hw : Derives depth above [.node .elements] w) :
    s.current ∉ [.arrayEnd, .eof] ∧ (elements limits).Reads s (.arrayEnd :: rest) := by
  obtain ⟨-, ys, hys, Hy⟩ := Hw.exists_production
  refine ⟨?_, Gives.reads (Gives.nodeOutcome
    (elementsLoop_reads _ H.opened hk hys Hy H.length_le))⟩
  have hne : ∀ k ∈ elementKinds, k ∉ [TokenKind.arrayEnd, .eof] := by decide
  obtain ⟨k, hmem, v, rfl⟩ := exists_cons_of_elements hys Hy
  rw [H.wf.current_of_kinds hk]
  exact hne k hmem

/-- From inside a pair of brackets through the closing one. -/
theorem closes_reads {close : TokenKind} {r : Rule Outcome} (H : Ready limits s)
    (hk : s.kinds = w ++ close :: rest)
    (h : w = [] ∨ s.current ∉ [close, .eof] ∧ r.Reads s (close :: rest)) :
    (do
      let ok ← unlessAt [close, .eof] r.succeeds
      let closed ← expect close
      return ok && closed).Reads s rest := by
  have hinside : (unlessAt [close, .eof] r.succeeds).Reads s (close :: rest) := by
    rcases h with rfl | ⟨hc, hr⟩
    · exact .unlessAt (fun _ => ⟨trivial, hk, rfl⟩) fun hc =>
        absurd (H.wf.current_of_kinds hk ▸ .head _) hc
    · exact .unlessAt (fun h => absurd h hc) fun _ => Reads.succeeds hr
  exact Reads.bind H hinside fun _ t Ht ht => Reads.bind_pure (Gives.reads (Gives.expect Ht ht))

section
variable (room : Bool) (hroom : room = true ↔ levels above < depth)
include hroom

theorem array_reads (H : Ready limits s) (hk : s.kinds = w ++ rest)
    (Hw : Derives depth (.arrayExpr :: above) [.node .array] w) :
    (array limits room).Reads s rest := by
  obtain ⟨hlevels, v, rfl, hv⟩ := Hw.array
  rw [List.cons_append, List.append_assoc] at hk
  refine isAt_bind_of_kinds H.wf hk ?_
  refine .ite nofun fun _ => .ite (fun _ => ?_) fun h => absurd (hroom.2 hlevels) h
  refine Gives.reads (Gives.nodeOutcome ?_)
  refine Reads.bind H.opened (Reads.bump H.opened.wf hk) fun _ t Ht ht => ?_
  exact closes_reads Ht ht (hv.imp_right fun Hv => elements_reads Ht ht Hv)

theorem arrayTail_reads (budget : Nat) (H : Ready limits s) (hk : s.kinds = w ++ rest)
    (hxs : xs ∈ (many (token .plus * Form.node .array)).matches')
    (Hw : Derives depth (.arrayExpr :: above) xs w) (hrest : Ends rest)
    (hbudget : s.kinds.length ≤ budget) : (arrayTail limits room budget).Reads s rest := by
  induction budget generalizing s w xs with
  | zero =>
    have hnil := List.eq_nil_of_length_eq_zero (Nat.le_zero.1 hbudget)
    refine ends_reads H ?_ hrest
    rw [hnil] at hk
    rw [hnil, (List.append_eq_nil_iff.1 hk.symm).2]
  | succ budget ih =>
    rcases mem_many_iff.1 hxs with rfl | ⟨_, ⟨_, rfl, _, rfl, rfl⟩, ys, hys, rfl⟩
    · rw [Derives.nil_iff.1 Hw, List.nil_append] at hk
      exact ends_reads H hk hrest
    · obtain ⟨_, rfl, Hu⟩ := Derives.token_cons_iff.1 Hw
      obtain ⟨u, v, rfl, Ha, Hv⟩ := Derives.node_cons_iff.1 Hu
      obtain ⟨-, a, rfl, -⟩ := Ha.array
      rw [List.cons_append, List.append_assoc] at hk
      refine .view_bind <| .ite (fun _ => ?_) fun h => absurd (H.wf.at_two hk) h
      refine Reads.bind H (Reads.bump H.wf hk) fun _ t Ht ht => ?_
      refine Reads.bind Ht (array_reads room hroom Ht ht Ha) fun _ t' Ht' ht' => .bind_pure ?_
      refine ih Ht' ht' hys Hv ?_
      rw [hk] at hbudget
      rw [ht']
      simp only [List.cons_append, List.length_cons, List.length_append] at hbudget ⊢
      omega

theorem arrayExpr_reads (H : Ready limits s) (hk : s.kinds = w ++ rest)
    (Hw : Derives depth above [.node .arrayExpr] w) (hrest : Ends rest) :
    (arrayExpr limits room).Reads s rest := by
  obtain ⟨ys, hys, u, v, rfl, Hu, Hv⟩ := Hw.arrayExpr
  obtain ⟨-, a, rfl, -⟩ := Hu.array
  refine isAt_bind_of_kinds H.wf hk ?_
  refine Gives.reads (Gives.nodeOutcome ?_)
  rw [List.append_assoc] at hk
  refine Reads.bind H.opened (array_reads room hroom H.opened hk Hu) fun _ t Ht ht =>
    .bind_pure ?_
  exact arrayTail_reads room hroom _ Ht ht hys Hv hrest Ht.length_le

end

end Rule

end Blueprint
