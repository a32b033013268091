import Blueprint.Proofs.Grammar.Fits.Array

/-!
# Pairs and what they stand in fit the grammar

The rule for values is a parameter here as it is of the rules for pairs, and all that counts about
it is `MakesValue`.
-/

namespace Blueprint

open Element NodeKind Form

/-- Below `above` the rule makes a value or does not apply. -/
def MakesValue (limits : Limits) (above : List NodeKind) (r : Rule Outcome) : Prop :=
  ∀ s, Ready limits s → r.Ensures s fun o es t =>
    Builds limits.maxDepth .value above s o es t ∨ o = .noMatch ∧ es = [] ∧ t = s

namespace Rule

open Ensures

variable {limits : Limits} {above : List NodeKind} {value : Rule Outcome} {s : State}
  {ks : List TokenKind}

theorem stopsAhead_pair : StopsAhead fun s : State =>
    [TokenKind.separator, .objectEnd].contains s.current ||
      (s.afterWhitespace && s.atPairStart) where
  raise _ _ := rfl
  opened s h := by
    rw [Bool.or_eq_false_iff] at h
    have hpending : s.opened.afterWhitespace = false := rfl
    rw [hpending, Bool.false_and, Bool.or_false]
    exact h.1

theorem stopsAhead_members : StopsAhead fun s : State =>
    s.current == .objectEnd || s.atPairStart := ⟨fun _ _ => rfl, fun _ h => h⟩

theorem pair_builds (hvalue : MakesValue limits (.pair :: above) value) (H : Ready limits s)
    (hk : s.kinds = .fieldName :: ks) (hlevels : levels above ≤ limits.maxDepth) :
    (pair limits value).Ensures s (Builds limits.maxDepth .pair above s) := by
  refine isAt_bind_of_kinds H.wf hk (.view_bind ?_)
  refine nodeOutcome_builds .pair H.wf ?_ rfl nofun hlevels
  have hlevels' : levels (.pair :: above) ≤ limits.maxDepth := hlevels
  have hlevels'' : levels (.fieldName :: .pair :: above) ≤ limits.maxDepth := hlevels
  refine (node_bump_takes .fieldName H.opened.wf hk rfl nofun hlevels'' (by decide)).bind
    fun _ es t hr ht => ?_
  obtain ⟨hname, hword, -, -⟩ := ht
  have Ht := H.opened.run hr
  refine eat_bind Ht.wf nofun (fun fs u hr' hu => ?_) fun _ => ?_
  · have Hu := Ht.run hr'
    have hword' : symbols (es ++ fs) = [.node .fieldName, .token .equals] := by
      rw [symbols_append, hword, hu.symbols_eq]
      rfl
    refine (hvalue u Hu).bind fun o gs v hr'' hv => ?_
    rcases hv with hv | ⟨rfl, rfl, rfl⟩
    · have hdone : Fills limits.maxDepth .pair above s.opened (es ++ (fs ++ (gs ++ []))) v := by
        rw [List.append_nil, ← List.append_assoc]
        refine .of_symbols ((hname.append hu.fits).append hv.fits)
          (by rw [symbols_append, hword', hv.symbols_eq]) (by decide) fun _ => by decide
      cases o with
      | complete => exact .pure hdone
      | incomplete => exact .pure hdone
      | noMatch => cases hv.isMatch
    · refine recover_bind (raises_raiseMissingValue _) stopsAhead_pair Hu hlevels' rfl
        fun _ gs v _ hrec _ => .pure ?_
      rw [List.append_nil, List.nil_append, ← List.append_assoc]
      exact hrec.fills (hname.append hu.fits) (by rw [hword']; decide) (by rw [hword']; decide)
  · refine recover_bind (raises_raiseExpected _) stopsAhead_pair Ht hlevels' rfl
      fun _ fs u _ hrec _ => .pure ?_
    rw [List.append_nil]
    exact hrec.fills hname (by rw [hword]; decide) (by rw [hword]; decide)

/-- A pair with what comes after it, or an error between pairs. -/
def pairOrError : Form :=
  Form.node .pair * optional (token .separator + Form.node .error) + Form.node .error

/-- A run that makes the rest of the pairs. -/
structure MakesMembers (depth : Nat) (above : List NodeKind) (s : State) (es : List Element)
    (t : State) : Prop where
  fits : Fits depth (.members :: above) s es t
  form : symbols es ∈ (many pairOrError).matches'
  production : t.raised = s.raised →
    (symbols es).map .plain ∈ (optional (list (Form.node .pair))).matches'

theorem MakesMembers.of_symbols {depth : Nat} {t : State} {es : List Element} {w : List Symbol}
    (H : Fits depth (.members :: above) s es t) (hw : symbols es = w)
    (hform : w ∈ (many pairOrError).matches')
    (hprod : t.raised = s.raised → w.map .plain ∈ (optional (list (Form.node .pair))).matches') :
    MakesMembers depth above s es t :=
  ⟨H, hw ▸ hform, hw ▸ hprod⟩

/-- A pair with its comma or an error in front of the rest: then there is something. -/
theorem MakesMembers.prepend {depth : Nat} {t u : State} {es fs : List Element}
    (H : Fits depth (.members :: above) s es t) (hform : symbols es ∈ pairOrError.matches')
    (hprod : t.raised = s.raised → symbols es = [.node .pair, .token .separator])
    (H' : MakesMembers depth above t fs u) :
    MakesMembers depth above s (es ++ fs) u ∧ symbols (es ++ fs) ≠ [] := by
  have hne : symbols es ≠ [] := by
    intro hnil
    rw [hnil] at hform
    exact absurd hform (by decide)
  refine ⟨⟨H.append H'.fits, ?_, fun h => ?_⟩, ?_⟩
  · rw [symbols_append]
    exact append_mem_many hform H'.form
  · obtain ⟨hst, htu⟩ := H.run.raised_eq H'.fits.run h
    rw [symbols_append, hprod hst]
    exact mem_optional.2 (.inr (mem_list_iff.2 (.inr ⟨_, H'.production htu, rfl⟩)))
  · rw [symbols_append]
    exact List.append_ne_nil_of_left_ne_nil hne _

theorem membersLoop_makes (hvalue : MakesValue limits (.pair :: .members :: above) value)
    (budget : Nat) (found : Bool) (H : Ready limits s)
    (hlevels : levels above ≤ limits.maxDepth) :
    (membersLoop limits value budget found).Ensures s fun _ es t =>
      MakesMembers limits.maxDepth above s es t ∧
        (0 < budget → s.current ∉ [.objectEnd, .eof] → symbols es ≠ []) := by
  have hlevels' : levels (.members :: above) ≤ limits.maxDepth := hlevels
  induction budget generalizing s found with
  | zero =>
    refine .bind_pure ((raises_complains (raises_raiseHere _)).mono fun _ es t _ ht => ?_)
    exact ⟨.of_symbols ht.fits ht.symbols_eq (by decide) fun _ => by decide, nofun⟩
  | succ budget ih =>
    refine .view_bind ?_
    have hnil : MakesMembers limits.maxDepth above s [] s :=
      .of_symbols (.refl s) rfl (by decide) fun _ => by decide
    split
    · next hc => exact .pure ⟨hnil, fun _ h => absurd (hc ▸ .head _) h⟩
    · next hc => exact .pure ⟨hnil, fun _ h => absurd (hc ▸ .tail _ (.head _)) h⟩
    · next hc =>
      obtain ⟨ks, hk⟩ := H.wf.exists_kinds hc nofun
      refine (pair_builds hvalue H hk hlevels').bind fun o es t hr hb => .view_bind ?_
      have Ht := H.run hr
      have hpair : MakesMembers limits.maxDepth above s (es ++ []) t ∧
          (0 < budget + 1 → s.current ∉ [.objectEnd, .eof] → symbols (es ++ []) ≠ []) := by
        rw [List.append_nil]
        refine ⟨.of_symbols hb.fits hb.symbols_eq (by decide) fun _ => by decide, fun _ _ => ?_⟩
        rw [hb.symbols_eq]
        nofun
      split
      · next hc' =>
        obtain ⟨ks', hk'⟩ := Ht.wf.exists_kinds hc' nofun
        refine (bump_takes Ht.wf hk').bind fun _ fs u hr' hu => ?_
        have hword : symbols (es ++ fs) = [.node .pair, .token .separator] := by
          rw [symbols_append, hb.symbols_eq, hu.symbols_eq]
          rfl
        refine .bind_pure ((ih true (Ht.run hr')).mono fun _ gs v _ hv => ?_)
        rw [← List.append_assoc]
        exact (MakesMembers.prepend (hb.fits.append hu.fits) (by rw [hword]; decide)
          (fun _ => hword) hv.1).imp_right fun h _ _ => h
      · exact .pure hpair
      · exact .pure hpair
      · refine recover_bind (raises_raiseExpected _) stopsAhead_members Ht hlevels' rfl
          fun _ fs u hr' hrec _ => ?_
        refine .bind_pure ((ih true (Ht.run hr')).mono fun _ gs v _ hv => ?_)
        rw [← List.append_assoc]
        have hne : u.raised ≠ s.raised := fun h => hrec.raised_ne (hr.raised_eq hr' h).2
        have hword : symbols (es ++ fs) ∈ pairOrError.matches' := by
          rw [symbols_append, hb.symbols_eq]
          rcases hrec.symbols_eq with hfs | hfs <;> rw [hfs] <;> decide
        exact (MakesMembers.prepend (hb.fits.append hrec.fits) hword (fun h => absurd h hne)
          hv.1).imp_right fun h _ _ => h
    · next hend heof hname =>
      refine recover_bind (raises_raiseExpected _) stopsAhead_members H hlevels' rfl
        fun _ es t hr hrec hskip => ?_
      obtain ⟨ks, hk⟩ := H.wf.exists_kinds rfl heof
      have hword : symbols es = [.node .error] := by
        refine hskip (by rw [hk]; nofun) ?_
        rw [State.atPairStart, beq_false_of_ne hend, beq_false_of_ne hname]
        rfl
      refine .bind_pure ((ih found (H.run hr)).mono fun _ fs u _ hu => ?_)
      exact (MakesMembers.prepend hrec.fits (by rw [hword]; decide)
        (fun h => absurd h hrec.raised_ne) hu.1).imp_right fun h _ _ => h

theorem members_builds (hvalue : MakesValue limits (.pair :: .members :: above) value)
    (H : Ready limits s) (hc : s.current ∉ [.objectEnd, .eof])
    (hlevels : levels above ≤ limits.maxDepth) :
    (members limits value).Ensures s (Builds limits.maxDepth .members above s) := by
  refine nodeOutcome_builds .members H.wf ?_ rfl nofun hlevels
  obtain ⟨ks, hk⟩ := H.wf.exists_kinds rfl fun h => hc (h ▸ .tail _ (.head _))
  obtain ⟨budget, hb⟩ := H.exists_maxIterations hk
  refine (membersLoop_makes hvalue _ false H.opened hlevels).mono fun _ es t _ ht => ?_
  have hne : symbols es ≠ [] := ht.2 (by omega) hc
  refine ⟨ht.1.fits, ?_, fun h => ?_⟩
  · exact mem_oneOrMore_iff.2 ((mem_many_iff.1 ht.1.form).resolve_left hne)
  · exact (mem_optional.1 (ht.1.production h)).resolve_left fun he => hne (List.map_eq_nil_iff.1 he)

/-- The run from an opening brace to the closing one, either of which may be missing its pairs. -/
theorem body_closes (hvalue : MakesValue limits (.pair :: .members :: above) value)
    (H : Ready limits s) (hk : s.kinds = .objectStart :: ks)
    (hlevels : levels above ≤ limits.maxDepth) :
    (body limits value).Ensures s fun _ es t => ∃ fs gs u, es = fs ++ gs ∧
      Takes .objectStart s fs u ∧ Closes limits.maxDepth above .members .objectEnd u gs t := by
  refine (expect_takes (k := .objectStart) H.wf nofun).bind fun ok es t hr ht => ?_
  rcases ht with ⟨rfl, ht⟩ | ⟨h, -⟩
  · refine .ite (fun _ => ?_) fun h => absurd rfl h
    refine (closes .members .objectEnd (H.run hr) nofun fun hc =>
      members_builds hvalue (H.run hr) hc hlevels).mono fun _ fs u _ hu => ?_
    exact ⟨es, fs, t, rfl, ht, hu⟩
  · exact absurd (H.wf.current_of_kinds hk) h

end Rule

end Blueprint
