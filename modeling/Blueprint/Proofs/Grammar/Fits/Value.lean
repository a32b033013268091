import Blueprint.Proofs.Grammar.Fits.Members
import Blueprint.Proofs.Grammar.Levels

/-!
# Values fit the grammar

`InnerFits` is what a level of the grammar relies on about the next one. Every level has it, so
values fit the grammar at every depth (`makesValue`).
-/

namespace Blueprint

open Element NodeKind Form

/-- From a reference on, the rule makes what is inside a chain of references, with a round of the
budget for each link. -/
def MakesLinks (limits : Limits) (above : List NodeKind) (r : Nat → Rule Bool) : Prop :=
  ∀ s budget ks, Ready limits s → s.kinds = .variableValueRef :: ks → s.kinds.length ≤ budget →
    (r budget).Ensures s fun _ es t => Fills limits.maxDepth .variableRefExpr above s es t

/-- The rules of the next level fit the grammar. -/
abbrev InnerFits (limits : Limits) : Option Inner → Nat → Prop :=
  Inner.Satisfies limits (MakesValue limits) (MakesLinks limits)

namespace Rule

open Ensures

variable {limits : Limits} {inner : Option Inner} {room : Nat} {above : List NodeKind} {s : State}
  {k : TokenKind} {ks : List TokenKind}

/-- An object, or past the depth limit an error in its place. -/
theorem object_fits (hinner : InnerFits limits inner room) (H : Ready limits s)
    (hk : s.kinds = .objectStart :: ks)
    (hroom : levels (.value :: above) + room = limits.maxDepth) :
    (object limits inner).Ensures s fun _ es t => Fits limits.maxDepth (.value :: above) s es t ∧
      (symbols es = [.node .object] ∨ symbols es = [.node .error] ∧ t.raised ≠ s.raised) := by
  refine isAt_bind_of_kinds H.wf hk ?_
  cases hinner with
  | none =>
    refine (tooDeep_fits H hk (Nat.le_of_eq hroom) fun k' hk' => ?_).mono
      fun _ _ _ _ ht => ⟨ht.1, .inr ⟨ht.2.2, ht.2.1⟩⟩
    cases hk'
    exact ⟨rfl, hroom⟩
  | @some rules room hvalue _ =>
    have hroom' : levels (.pair :: .members :: .object :: .value :: above) + room =
        limits.maxDepth := levels_cons_add (k := .object) rfl hroom
    have hlevels : levels (.object :: .value :: above) ≤ limits.maxDepth := Nat.le.intro hroom'
    have hbody := body_closes (hvalue _ nofun hroom') H.opened hk hlevels
    refine (nodeOutcome_builds .object H.wf (hbody.mono fun _ es t hr ht => ?_) rfl nofun
      hlevels).mono fun _ _ _ _ hb => ⟨hb.fits, .inl hb.symbols_eq⟩
    obtain ⟨fs, gs, u, rfl, ht, hu⟩ := ht
    exact hu.fills ht.fits ht.symbols_eq (by decide) (by decide)

/-- The inside of a value that is not a reference. -/
theorem operand_fills (hinner : InnerFits limits inner room) (H : Ready limits s)
    (hk : s.kinds = k :: ks) (hstart : k ∈ valueStart) (href : k ≠ .variableValueRef)
    (hroom : levels above + room = limits.maxDepth) :
    (operand limits inner).Ensures s fun _ es t => Fills limits.maxDepth .value above s es t := by
  have hlevels : levels (.value :: above) ≤ limits.maxDepth := Nat.le.intro hroom
  have hcurrent := H.wf.current_of_kinds hk
  refine .view_bind ?_
  split
  · next hc =>
    rw [← hcurrent, hc] at hk
    refine .succeeds ((stringExpr_builds H hk hlevels).mono fun _ es t _ hb => ?_)
    exact .of_symbols hb.fits hb.symbols_eq (by decide) fun _ => by decide
  · next hc =>
    rw [← hcurrent, hc] at hk
    have hspare : inner.isSome = true ↔ levels (.value :: above) < limits.maxDepth :=
      hinner.isSome_iff hroom
    refine .succeeds ((arrayExpr_builds _ hspare H hk hlevels).mono fun _ es t _ hb => ?_)
    exact .of_symbols hb.fits hb.symbols_eq (by decide) fun _ => by decide
  · next hc =>
    rw [← hcurrent, hc] at hk
    have hroom' : levels (.value :: above) + room = limits.maxDepth := hroom
    refine .succeeds ((object_fits hinner H hk hroom').mono fun _ es t _ ht => ?_)
    obtain ⟨hf, hw | ⟨hw, hne⟩⟩ := ht
    · exact .of_symbols hf hw (by decide) fun _ => by decide
    · exact .of_symbols hf hw (by decide) fun h => absurd h hne
  · next hstring harray hobject =>
    rw [hcurrent] at hstring harray hobject
    have hleaf : ∀ k ∈ valueStart, k ≠ .variableValueRef → k ≠ .string → k ≠ .arrayStart →
        k ≠ .objectStart → k = .bool ∨ k = .number := by decide
    refine .bind_pure ((bump_takes H.wf hk).mono fun _ es t _ ht => ?_)
    rcases hleaf k hstart href hstring harray hobject with rfl | rfl
    · exact .of_symbols ht.fits ht.symbols_eq (by decide) fun _ => by decide
    · exact .of_symbols ht.fits ht.symbols_eq (by decide) fun _ => by decide

/-- The rest of a chain behind a plus, as a reference in a value of its own. -/
theorem nestedLinks_fits {links : Nat → Rule Bool} {budget : Nat} (H : Ready limits s)
    (hk : s.kinds = .variableValueRef :: ks) (hlen : s.kinds.length ≤ budget)
    (hlevels : levels (.variableRefExpr :: .value :: above) ≤ limits.maxDepth)
    (hlinks : MakesLinks limits (.value :: above) links) :
    (node .value (node .variableRefExpr (links budget))).Ensures s fun _ es t =>
      Fits limits.maxDepth above s es t ∧ symbols es = [.node .value] := by
  have hrefs := hlinks _ _ _ H.opened.opened hk hlen
  have hnode := node_fits .variableRefExpr H.opened.wf hrefs rfl nofun hlevels
  refine node_fits .value H.wf (hnode.mono fun _ es t _ ht => ?_) rfl nofun ?_
  · exact .of_symbols ht.1 ht.2 (by decide) fun _ => by decide
  · exact Nat.le_of_add_right_le hlevels

theorem links_makes (hinner : InnerFits limits inner room)
    (hroom : levels (.variableRefExpr :: above) + room = limits.maxDepth) :
    MakesLinks limits above (links limits inner) := by
  intro s budget ks H hk hbudget
  have hlevels : levels (.value :: .variableRefExpr :: above) ≤ limits.maxDepth :=
    Nat.le.intro hroom
  cases budget with
  | zero =>
    rw [hk] at hbudget
    cases hbudget
  | succ budget =>
    refine (bump_takes H.wf hk).bind fun _ es t hr ht => ?_
    have Ht := H.run hr
    refine .view_bind <| .ite (fun htail => ?_) fun _ => .pure ?_
    · obtain ⟨k, hk', ks', hks'⟩ := Ht.wf.exists_kinds_of_atTail htail
      refine (bump_takes Ht.wf hks').bind fun _ fs u hr' hu => ?_
      have Hu := Ht.run hr'
      have hku : u.kinds = k :: ks' := hu.kinds_eq_of hks'
      have hfits : Fits limits.maxDepth (.variableRefExpr :: above) s (es ++ fs) u :=
        ht.fits.append hu.fits
      have hword : symbols (es ++ fs) = [.token .variableValueRef, .token .plus] := by
        rw [symbols_append, ht.symbols_eq, hu.symbols_eq]
        rfl
      have htail : ∀ {gs v}, Fits limits.maxDepth (.variableRefExpr :: above) u gs v ∧
          symbols gs = [.node .value] →
          Fills limits.maxDepth .variableRefExpr above s (es ++ (fs ++ gs)) v := by
        intro gs v hv
        rw [← List.append_assoc]
        exact .of_symbols (hfits.append hv.1) (by rw [symbols_append, hword, hv.2]) (by decide)
          fun _ => by decide
      refine isAt_bind (fun href => ?_) fun href => ?_
      · cases hinner with
        | none =>
          have hdeep : ∀ k' ∈ (NodeKind.variableRefExpr :: above).head?.bind deeperStart,
              k = k' ∧ levels (.variableRefExpr :: above) = limits.maxDepth := by
            intro k' hk'
            cases hk'
            exact ⟨(Hu.wf.current_of_kinds hku).symm.trans href, hroom⟩
          refine (complain_bind (raises_raiseHere _) Hu fun v Hv hv =>
            .bind_pure (skipChain_skips Hv (hv.trans hku) (Nat.le_of_eq hroom) hdeep)).mono
              fun _ gs v hr'' hv => ?_
          rw [← List.append_assoc]
          exact .of_symbols (hfits.append hv.1) (by rw [symbols_append, hword, hv.2.2]) (by decide)
            fun h => absurd (hfits.run.raised_eq hr'' h).2 hv.2.1
        | @some rules room _ hlinks =>
          have hroom' : levels (.variableRefExpr :: .value :: .variableRefExpr :: above) + room =
              limits.maxDepth := levels_cons_add rfl hroom
          have hkref : u.kinds = .variableValueRef :: ks' := by
            rw [← href, Hu.wf.current_of_kinds hku, hku]
          have hlen : u.kinds.length ≤ budget := by
            rw [ht.kinds_eq, hu.kinds_eq] at hbudget
            exact Nat.le_of_succ_le (Nat.le_of_succ_le_succ hbudget)
          exact .bind_pure ((nestedLinks_fits Hu hkref hlen (Nat.le.intro hroom')
            (hlinks _ hroom')).mono fun _ gs v _ hv => htail hv)
      · rw [Hu.wf.current_of_kinds hku] at href
        have hvalue := operand_fills hinner Hu.opened hku hk' href hroom
        exact .bind_pure ((node_fits .value Hu.wf hvalue rfl nofun hlevels).mono
          fun _ gs v _ hv => htail hv)
    · rw [List.append_nil]
      exact .of_symbols ht.fits ht.symbols_eq (by decide) fun _ => by decide

theorem variableRefExpr_builds (hinner : InnerFits limits inner room) (H : Ready limits s)
    (hk : s.kinds = .variableValueRef :: ks)
    (hroom : levels (.variableRefExpr :: above) + room = limits.maxDepth) :
    (variableRefExpr limits inner).Ensures s
      (Builds limits.maxDepth .variableRefExpr above s) := by
  refine isAt_bind_of_kinds H.wf hk ?_
  exact nodeOutcome_builds .variableRefExpr H.wf
    (links_makes hinner hroom _ _ _ H.opened hk H.length_le) rfl nofun (Nat.le.intro hroom)

theorem value_makes (hinner : InnerFits limits inner room)
    (habove : above.head? ≠ some .variableRefExpr)
    (hroom : levels above + room = limits.maxDepth) :
    MakesValue limits above (value limits inner) := by
  intro s H
  refine .view_bind <| .ite (fun h => ?_) fun _ => .pure (.inr ⟨rfl, rfl, rfl⟩)
  have hmem : s.current ∈ valueStart := List.contains_iff_mem.1 h
  obtain ⟨ks, hk⟩ := H.wf.exists_kinds rfl fun he => by rw [he] at hmem; revert hmem; decide
  have hlevels : levels (.value :: above) ≤ limits.maxDepth := Nat.le.intro hroom
  refine (nodeOutcome_builds .value H.wf (isAt_bind (fun href => ?_) fun href => ?_) rfl nofun
    hlevels).mono fun _ _ _ _ hb => .inl hb
  · have hroom' : levels (.variableRefExpr :: .value :: above) + room = limits.maxDepth := by
      rw [levels_variableRefExpr habove, hroom]
    have hkref : s.opened.kinds = .variableValueRef :: ks := by
      rw [← href]
      exact hk
    refine .succeeds ((variableRefExpr_builds hinner H.opened hkref hroom').mono
      fun _ es t _ hb => ?_)
    exact .of_symbols hb.fits hb.symbols_eq (by decide) fun _ => by decide
  · exact operand_fills hinner H.opened hk hmem href hroom

/-- Values fit the grammar at every depth. -/
theorem makesValue (habove : above.head? ≠ some .variableRefExpr)
    (hroom : levels above + room = limits.maxDepth) :
    MakesValue limits above (value limits (innerAt limits room)) :=
  value_makes (Inner.satisfies_innerAt value_makes links_makes room) habove hroom

end Rule

end Blueprint
