import Blueprint.Proofs.Grammar.Reads.Value
import Blueprint.Proofs.Grammar.Fits.File

/-!
# Files are read

A file whose tokens are derived from the start of the grammar raises no error (`fileBody_reads`).
-/

namespace Blueprint

open Element NodeKind Form

namespace Rule

open Ensures

variable {limits : Limits} {room : Nat} {above : List NodeKind} {s : State} {k : TokenKind}
  {w rest : List TokenKind} {xs : List Symbol}

theorem blueprint_gives (H : Ready limits s) (hk : s.kinds = w ++ rest)
    (hroom : levels above + room = limits.maxDepth)
    (Hw : Derives limits.maxDepth above [.node .blueprint] w) :
    (blueprint limits room).Gives (·.isMatch = true) s rest := by
  obtain ⟨v, rfl, hv⟩ := Hw.blueprint
  have hroom' : levels (.pair :: .members :: .blueprint :: above) + room = limits.maxDepth := hroom
  refine isAt_bind_of_kinds H.wf hk (Gives.nodeOutcome ?_)
  refine Reads.bind H.opened (Reads.node (Reads.bump H.opened.opened.wf hk)) fun _ t Ht ht => ?_
  exact body_reads (readsValue nofun hroom') Ht ht hv

theorem eatAssignment_gives (H : Ready limits s) (hk : s.kinds = k :: rest)
    (hop : k = .equals ∨ k = .plusEquals) : eatAssignment.Gives (· = true) s rest := by
  rcases hop with rfl | rfl
  · refine Gives.bind H (Gives.eat H.wf hk) fun ok t hok _ ht => ?_
    rw [hok]
    exact Gives.pure rfl ht
  · have hc := H.wf.current_of_kinds hk
    refine eat_bind H.wf nofun (fun es t _ ht => ?_) fun _ => Gives.eat H.wf hk
    cases ht.kinds_eq.symm.trans hk

theorem variableDef_gives (H : Ready limits s) (hk : s.kinds = w ++ rest)
    (hroom : levels above + room = limits.maxDepth)
    (Hw : Derives limits.maxDepth above [.node .variable] w) (hrest : Ends rest) :
    (variableDef limits room).Gives (·.isMatch = true) s rest := by
  obtain ⟨k, v, hop, rfl, Hv⟩ := Hw.variableDef
  have hroom' : levels (.variable :: above) + room = limits.maxDepth := hroom
  refine isAt_bind_of_kinds H.wf hk (.view_bind (Gives.nodeOutcome ?_))
  refine Reads.bind H.opened (Reads.bump H.opened.wf hk) fun _ t Ht ht => ?_
  refine Gives.bind Ht (eatAssignment_gives Ht ht hop) fun ok u hok Hu hu => ?_
  rw [hok]
  refine Gives.bind Hu (readsValue (by nofun) hroom' u v rest Hu hu Hv hrest)
    fun o u' ho Hu' hu' => ?_
  cases o with
  | complete => exact Reads.pure hu'
  | incomplete => exact Reads.pure hu'
  | noMatch => cases ho

/-- The items that are still to come. -/
theorem ends_of_items (hxs : xs ∈ NodeKind.file.production.matches')
    (Hw : Derives limits.maxDepth above xs w) : Ends w := by
  rcases mem_many_iff.1 hxs with rfl | ⟨_, rfl | rfl, ys, hys, rfl⟩
  · rw [Derives.nil_iff.1 Hw]
    nofun
  · obtain ⟨u, v, rfl, Hu, -⟩ := Derives.node_cons_iff.1 Hw
    obtain ⟨u', rfl, -⟩ := Hu.blueprint
    exact ends_cons nofun
  · obtain ⟨u, v, rfl, Hu, -⟩ := Derives.node_cons_iff.1 Hw
    obtain ⟨k, u', -, rfl, -⟩ := Hu.variableDef
    exact ends_cons nofun

theorem itemOrSkip_reads (H : Ready limits s) (hk : s.kinds = w ++ rest)
    (hroom : levels above + room = limits.maxDepth)
    (Hw : Derives limits.maxDepth above [.node .blueprint] w ∨
      Derives limits.maxDepth above [.node .variable] w) (hrest : Ends rest) :
    (itemOrSkip limits room).Reads s rest := by
  have hitem : (item limits room).Gives (·.isMatch = true) s rest := by
    refine .view_bind ?_
    rcases Hw with Hw | Hw
    · obtain ⟨v, rfl, -⟩ := Hw.blueprint
      rw [H.wf.current_of_kinds hk]
      exact blueprint_gives H hk hroom Hw
    · obtain ⟨k, v, -, rfl, -⟩ := Hw.variableDef
      rw [H.wf.current_of_kinds hk]
      exact variableDef_gives H hk hroom Hw hrest
  refine Gives.bind H hitem fun o t ho _ ht => ?_
  rw [ho]
  exact Reads.pure ht

theorem forceProgress_reads {before : Nat} (h : s.position ≠ before) :
    (forceProgress before).Reads s s.kinds :=
  .view_bind <| .ite (fun he => absurd (eq_of_beq he) h) fun _ => Reads.pure rfl

theorem items_reads (budget : Nat) (H : Ready limits s)
    (hxs : xs ∈ NodeKind.file.production.matches') (Hw : Derives limits.maxDepth [.file] xs s.kinds)
    (hbudget : s.kinds.length ≤ budget) : (items limits limits.maxDepth budget).Reads s [] := by
  induction budget generalizing s xs with
  | zero =>
    have hnil := List.eq_nil_of_length_eq_zero (Nat.le_zero.1 hbudget)
    exact .view_bind <| .ite (fun _ => Reads.pure hnil) fun h => absurd (H.wf.atEof_iff.2 hnil) h
  | succ budget ih =>
    rcases mem_many_iff.1 hxs with rfl | ⟨_, hitem, ys, hys, rfl⟩
    · have hnil := Derives.nil_iff.1 Hw
      exact .view_bind <| .ite (fun _ => Reads.pure hnil) fun h =>
        absurd (H.wf.atEof_iff.2 hnil) h
    obtain ⟨u, v, hk, Hu, Hv, hne⟩ : ∃ u v, s.kinds = u ++ v ∧
        (Derives limits.maxDepth [.file] [.node .blueprint] u ∨
          Derives limits.maxDepth [.file] [.node .variable] u) ∧
        Derives limits.maxDepth [.file] ys v ∧ u ≠ [] := by
      rcases hitem with rfl | rfl
      · obtain ⟨u, v, hk, Hu, Hv⟩ := Derives.node_cons_iff.1 Hw
        obtain ⟨u', hu', -⟩ := Hu.blueprint
        exact ⟨u, v, hk, .inl Hu, Hv, hu' ▸ nofun⟩
      · obtain ⟨u, v, hk, Hu, Hv⟩ := Derives.node_cons_iff.1 Hw
        obtain ⟨k, u', -, hu', -⟩ := Hu.variableDef
        exact ⟨u, v, hk, .inr Hu, Hv, hu' ▸ nofun⟩
    have hlen : 0 < u.length := List.length_pos_iff.2 hne
    have hroom : levels [.file] + limits.maxDepth = limits.maxDepth := Nat.zero_add _
    refine .view_bind <| .ite (fun h => ?_) fun _ => .view_bind ?_
    · rw [H.wf.atEof_iff, hk] at h
      exact absurd (List.append_eq_nil_iff.1 h).1 hne
    refine Ensures.bind (itemOrSkip_reads H hk hroom Hu (ends_of_items hys Hv))
      fun _ es t hr ht => ?_
    obtain ⟨-, ht, hraised⟩ := ht
    have Ht := H.run hr
    have hplace : t.position ≠ s.position := fun hp => by
      have hkinds : t.kinds = s.kinds := by
        rw [State.kinds, State.kinds, hr.rest_eq_of_position H.wf hp]
      rw [ht, hk] at hkinds
      exact hne (List.self_eq_append_left.1 hkinds)
    refine Ensures.mono (Reads.bind Ht (forceProgress_reads hplace) fun _ t' Ht' ht' => ?_)
      fun _ _ _ _ hu => ⟨trivial, hu.2.1, hu.2.2.trans hraised⟩
    rw [ht] at ht'
    refine ih Ht' hys (ht' ▸ Hv) ?_
    rw [hk, List.length_append] at hbudget
    rw [ht']
    omega

/-- A file whose tokens are derived raises no error. -/
theorem fileBody_reads (H : Ready limits s)
    (Hw : Derives limits.maxDepth [] [.node .file] s.kinds) :
    (fileBody limits limits.maxDepth s).state.raised = s.raised := by
  obtain ⟨-, ys, hys, Hy⟩ := Hw.exists_production
  have hcontents : (contents limits limits.maxDepth limits.maxIterations).Reads s [] := by
    refine Reads.bind H (items_reads _ H hys Hy H.length_le) fun _ t Ht ht => ?_
    exact .view_bind <| .ite (fun _ => Reads.pure ht) fun h => absurd (Ht.wf.atEof_iff.2 ht) h
  rw [fileBody_apply]
  exact hcontents.2.2.2

end Rule

end Blueprint
