import Blueprint.Proofs.Grammar.Reads.Members
import Blueprint.Proofs.Grammar.Fits.Value

/-!
# Values are read

`InnerReads` is to reading what `InnerFits` is to fitting. Every level has it, so every value is
read that lies within the depth limit (`readsValue`).
-/

namespace Blueprint

open Element NodeKind Form

/-- From a reference on, the rule reads every chain of references that it has the rounds for. -/
def ReadsLinks (limits : Limits) (above : List NodeKind) (r : Nat → Rule Bool) : Prop :=
  ∀ s budget w rest, Ready limits s → s.kinds = w ++ rest → s.kinds.length ≤ budget →
    Derives limits.maxDepth above [.node .variableRefExpr] w → Ends rest →
    (r budget).Reads s rest

/-- The rules of the next level read what is derived. -/
abbrev InnerReads (limits : Limits) : Option Inner → Nat → Prop :=
  Inner.Satisfies limits (ReadsValue limits) (ReadsLinks limits)

namespace Rule

open Ensures

variable {limits : Limits} {inner : Option Inner} {room : Nat} {above : List NodeKind} {s : State}
  {w rest : List TokenKind}

theorem object_reads (hinner : InnerReads limits inner room) (H : Ready limits s)
    (hk : s.kinds = w ++ rest) (hroom : levels above + room = limits.maxDepth)
    (Hw : Derives limits.maxDepth above [.node .object] w) :
    (object limits inner).Reads s rest := by
  obtain ⟨hlevels, v, rfl, hv⟩ := Hw.object
  refine isAt_bind_of_kinds H.wf hk ?_
  cases hinner with
  | none => exact absurd hlevels (Nat.not_le.2 (Nat.lt_succ_of_le (Nat.le_of_eq hroom.symm)))
  | @some rules room hvalue _ =>
    have hroom' : levels (.pair :: .members :: .object :: above) + room = limits.maxDepth :=
      levels_cons_add (k := .object) rfl hroom
    exact Gives.reads (Gives.nodeOutcome (body_reads (hvalue _ nofun hroom') H.opened hk hv))

theorem operand_reads (hinner : InnerReads limits inner room) (H : Ready limits s)
    (hk : s.kinds = w ++ rest) (hroom : levels above + room = limits.maxDepth)
    (Hw : Derives.Operand limits.maxDepth (.value :: above) w) (hrest : Ends rest) :
    (operand limits inner).Reads s rest := by
  have hroom' : levels (.value :: above) + room = limits.maxDepth := hroom
  refine .view_bind ?_
  cases Hw with
  | stringExpr Hw =>
    obtain ⟨-, -, v, rfl, -⟩ := Hw.stringExpr
    rw [H.wf.current_of_kinds hk]
    exact Reads.succeeds (stringExpr_reads H hk Hw hrest)
  | arrayExpr Hw =>
    have hspare : inner.isSome = true ↔ levels (.value :: above) < limits.maxDepth :=
      hinner.isSome_iff hroom'
    obtain ⟨-, -, u, v, rfl, Hu, -⟩ := Hw.arrayExpr
    obtain ⟨-, a, rfl, -⟩ := Hu.array
    rw [H.wf.current_of_kinds hk]
    exact Reads.succeeds (arrayExpr_reads _ hspare H hk Hw hrest)
  | object Hw =>
    obtain ⟨-, v, rfl, -⟩ := Hw.object
    rw [H.wf.current_of_kinds hk]
    exact Reads.succeeds (object_reads hinner H hk hroom' Hw)
  | bool =>
    rw [H.wf.current_of_kinds hk]
    exact Reads.bind_pure (Reads.bump H.wf hk)
  | number =>
    rw [H.wf.current_of_kinds hk]
    exact Reads.bind_pure (Reads.bump H.wf hk)

/-- What an operand starts with can start a value, and is no reference. -/
theorem exists_cons_of_operand {depth : Nat} (Hw : Derives.Operand depth above w) :
    ∃ k ∈ valueStart, k ≠ .variableValueRef ∧ ∃ v, w = k :: v := by
  cases Hw with
  | stringExpr Hw =>
    obtain ⟨-, -, v, rfl, -⟩ := Hw.stringExpr
    exact ⟨_, by decide, by decide, _, rfl⟩
  | arrayExpr Hw =>
    obtain ⟨-, -, u, v, rfl, Hu, -⟩ := Hw.arrayExpr
    obtain ⟨-, a, rfl, -⟩ := Hu.array
    exact ⟨_, by decide, by decide, _, rfl⟩
  | object Hw =>
    obtain ⟨-, v, rfl, -⟩ := Hw.object
    exact ⟨_, by decide, by decide, _, rfl⟩
  | bool => exact ⟨_, by decide, by decide, _, rfl⟩
  | number => exact ⟨_, by decide, by decide, _, rfl⟩

theorem exists_cons_of_variableRefExpr {depth : Nat}
    (Hw : Derives depth above [.node .variableRefExpr] w) : ∃ v, w = .variableValueRef :: v := by
  obtain ⟨-, rfl | ⟨v, rfl, -⟩⟩ := Hw.variableRefExpr
  · exact ⟨_, rfl⟩
  · exact ⟨_, rfl⟩

theorem links_reads (hinner : InnerReads limits inner room)
    (hroom : levels (.variableRefExpr :: above) + room = limits.maxDepth) :
    ReadsLinks limits above (links limits inner) := by
  intro s budget w rest H hk hbudget Hw hrest
  cases budget with
  | zero =>
    obtain ⟨v, rfl⟩ := exists_cons_of_variableRefExpr Hw
    rw [hk] at hbudget
    cases hbudget
  | succ budget =>
    obtain ⟨-, rfl | ⟨v, rfl, Hv⟩⟩ := Hw.variableRefExpr
    · exact Reads.bind H (Reads.bump H.wf hk) fun _ t Ht ht => ends_reads Ht ht hrest
    · refine Reads.bind H (Reads.bump H.wf hk) fun _ t Ht ht => .view_bind ?_
      rcases Hv.value with Hop | Href
      · obtain ⟨k, hmem, hne, v, rfl⟩ := exists_cons_of_operand Hop
        refine .ite (fun _ => ?_) fun h => absurd (Ht.wf.atTail ht hmem) h
        refine Reads.bind Ht (Reads.bump Ht.wf ht) fun _ u Hu hu => ?_
        refine isAt_bind (fun h => absurd (Hu.wf.current_of_kinds hu ▸ h) hne) fun _ => ?_
        exact Reads.bind_pure (Reads.node (operand_reads hinner Hu.opened hu hroom Hop hrest))
      · obtain ⟨v, rfl⟩ := exists_cons_of_variableRefExpr Href
        refine .ite (fun _ => ?_) fun h => absurd (Ht.wf.atTail ht (by decide)) h
        refine Reads.bind Ht (Reads.bump Ht.wf ht) fun _ u Hu hu => ?_
        refine isAt_bind_of_kinds Hu.wf hu ?_
        cases hinner with
        | none => exact absurd Href.variableRefExpr.1 (Nat.not_le.2 (hroom ▸ Nat.lt_succ_self _))
        | @some rules room _ hlinks =>
          have hroom' : levels (.variableRefExpr :: .value :: .variableRefExpr :: above) + room =
              limits.maxDepth := levels_cons_add rfl hroom
          refine Reads.bind_pure (Reads.node (Reads.node ?_))
          refine hlinks _ hroom' _ _ _ _ Hu.opened.opened hu ?_ Href hrest
          change u.kinds.length ≤ budget
          rw [hk] at hbudget
          rw [hu]
          exact Nat.le_of_succ_le (Nat.le_of_succ_le_succ hbudget)

theorem value_reads (hinner : InnerReads limits inner room)
    (habove : above.head? ≠ some .variableRefExpr)
    (hroom : levels above + room = limits.maxDepth) :
    ReadsValue limits above (value limits inner) := by
  intro s w rest H hk Hw hrest
  have hroom' : levels (.variableRefExpr :: .value :: above) + room = limits.maxDepth := by
    rw [levels_variableRefExpr habove, hroom]
  refine .view_bind ?_
  rcases Hw.value with Hop | Href
  · obtain ⟨k, hmem, hne, v, rfl⟩ := exists_cons_of_operand Hop
    have hc := H.wf.current_of_kinds hk
    refine .ite (fun _ => Gives.nodeOutcome ?_) fun h =>
      absurd (List.contains_iff_mem.2 (hc ▸ hmem)) h
    refine isAt_bind (fun h => absurd (hc ▸ h) hne) fun _ => ?_
    exact operand_reads hinner H.opened hk hroom Hop hrest
  · obtain ⟨v, rfl⟩ := exists_cons_of_variableRefExpr Href
    have hc := H.wf.current_of_kinds hk
    refine .ite (fun _ => Gives.nodeOutcome ?_) fun h =>
      absurd (List.contains_iff_mem.2 (hc ▸ by decide)) h
    refine isAt_bind_of_kinds H.opened.wf hk (Reads.succeeds ?_)
    refine isAt_bind_of_kinds H.opened.wf hk ?_
    exact Gives.reads (Gives.nodeOutcome
      (links_reads hinner hroom' _ _ _ _ H.opened.opened hk H.length_le Href hrest))

/-- Every value is read that lies within the depth limit. -/
theorem readsValue (habove : above.head? ≠ some .variableRefExpr)
    (hroom : levels above + room = limits.maxDepth) :
    ReadsValue limits above (value limits (innerAt limits room)) :=
  value_reads (Inner.satisfies_innerAt value_reads links_reads room) habove hroom

end Rule

end Blueprint
