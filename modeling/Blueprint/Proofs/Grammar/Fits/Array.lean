import Blueprint.Proofs.Grammar.Fits.Skip

/-!
# Strings and arrays fit the grammar

One lemma for each rule: what it makes of the tokens in front of it is in shape, and follows the
grammar unless it raises an error.
-/

namespace Blueprint

open Element NodeKind Form

namespace Rule

open Ensures

variable {limits : Limits} {depth : Nat} {above : List NodeKind} {s : State} {k : TokenKind}
  {ks : List TokenKind}

/-! ### Strings -/

theorem stringTail_fits (budget : Nat) (H : s.WF) :
    (stringTail budget).Ensures s fun _ es t =>
      (∀ {depth : Nat} {above : List NodeKind}, Fits depth above s es t) ∧
      symbols es ∈ (many (token .plus * token .string)).matches' ∧
      (symbols es).map .plain = symbols es := by
  induction budget generalizing s with
  | zero =>
    refine .view_bind <| .ite (fun _ => ?_) fun _ => .pure ⟨.refl s, nil_mem_many, rfl⟩
    refine (raises_complains (raises_raiseHere _)).mono fun _ es t _ ht => ?_
    rw [ht.emitted_eq]
    exact ⟨ht.emitted_eq ▸ ht.fits, nil_mem_many, rfl⟩
  | succ budget ih =>
    refine .view_bind <| .ite (fun h => ?_) fun _ => .pure ⟨.refl s, nil_mem_many, rfl⟩
    obtain ⟨ks, hk⟩ := H.exists_kinds_two h nofun nofun
    refine (bump_takes H hk).bind fun _ es t hr ht => ?_
    refine (bump_takes (hr.wf H) (ht.kinds_eq_of hk)).bind fun _ fs u hr' hu => ?_
    refine (ih (hr'.wf (hr.wf H))).mono fun _ gs v _ hv =>
      ⟨ht.fits.append (hu.fits.append hv.1), ?_⟩
    simp only [symbols_append, ht.symbols_eq, hu.symbols_eq, List.map_append, hv.2.2]
    exact ⟨append_mem_many (v := [.token .plus, .token .string]) (by decide) hv.2.1, rfl⟩

theorem stringExpr_builds (H : Ready limits s) (hk : s.kinds = .string :: ks)
    (hlevels : levels above ≤ depth) :
    (stringExpr limits).Ensures s (Builds depth .stringExpr above s) := by
  refine isAt_bind_of_kinds H.wf hk ?_
  refine nodeOutcome_builds .stringExpr H.wf ?_ rfl nofun hlevels
  refine (bump_takes H.wf.opened hk).bind fun _ es t hr ht => .bind_pure ?_
  refine (stringTail_fits _ (hr.wf H.wf.opened)).mono fun _ fs u _ hu => ?_
  obtain ⟨hf, hm, hplain⟩ := hu
  refine .of_symbols (ht.fits.append hf) (by rw [symbols_append, ht.symbols_eq]) ?_ fun _ => ?_
  · exact append_mem_mul (by decide) hm
  · rw [List.map_append, hplain]
    exact append_mem_mul (by decide) hm

/-! ### Arrays -/

theorem mem_form_arrayElement (h : k ∈ elementKinds) :
    [.token k] ∈ NodeKind.arrayElement.form.matches' := by
  revert h
  cases k <;> decide

theorem arrayElement_builds (H : s.WF) (hlevels : levels above ≤ depth) :
    arrayElement.Ensures s fun o es t => Builds depth .arrayElement above s o es t ∨
      o = .noMatch ∧ es = [] ∧ t = s := by
  refine .view_bind <| .ite (fun h => ?_) fun _ => .pure (.inr ⟨rfl, rfl, rfl⟩)
  have hmem : s.current ∈ elementKinds := List.contains_iff_mem.1 h
  obtain ⟨ks, hk⟩ := H.exists_kinds rfl fun he => by rw [he] at hmem; revert hmem; decide
  refine (nodeOutcome_builds .arrayElement H ?_ rfl nofun hlevels).mono fun _ _ _ _ h => .inl h
  exact .bind_pure <| (bump_takes H.opened hk).mono fun _ es t _ ht =>
    .of_symbols ht.fits ht.symbols_eq (mem_form_arrayElement hmem)
      fun _ => mem_form_arrayElement hmem

theorem stopsAhead_elements : StopsAhead fun s : State =>
    [TokenKind.arrayEnd, .objectEnd].contains s.current := ⟨fun _ _ => rfl, fun _ h => h⟩

theorem elementsLoop_fills (budget : Nat) (H : Ready limits s) (hlevels : levels above ≤ depth) :
    (elementsLoop limits budget).Ensures s fun _ es t => Fills depth .elements above s es t := by
  have hlevels' : levels (.elements :: above) ≤ depth := hlevels
  induction budget generalizing s with
  | zero =>
    refine .bind_pure ((raises_complains (raises_raiseHere _)).mono fun _ es t _ ht => ?_)
    exact .of_symbols ht.fits ht.symbols_eq (by decide) fun h => absurd h ht.raised_ne
  | succ budget ih =>
    refine (arrayElement_builds H.wf hlevels').bind fun o es t hr ht => ?_
    have Ht := H.run hr
    rcases ht with hb | ⟨rfl, rfl, rfl⟩
    · refine .ite (fun h => ?_) fun _ => .view_bind ?_
      · rw [hb.isMatch] at h
        cases h
      have hend : Fills depth .elements above s (es ++ []) t :=
        .of_symbols (hb.fits.append (.refl t)) (by rw [List.append_nil, hb.symbols_eq]) (by decide)
          fun _ => by decide
      split
      · next hc =>
        obtain ⟨ks, hk⟩ := Ht.wf.exists_kinds hc nofun
        refine (bump_takes Ht.wf hk).bind fun _ fs u hr' hu => ?_
        have hword : symbols (es ++ fs) = [.node .arrayElement, .token .separator] := by
          rw [symbols_append, hb.symbols_eq, hu.symbols_eq]
          rfl
        refine isAt_bind (fun _ => .pure ?_) fun _ => ?_
        · rw [List.append_nil]
          exact .of_symbols (hb.fits.append hu.fits) hword (by decide) fun _ => by decide
        · refine (ih (Ht.run hr')).mono fun _ gs v _ hv => ?_
          rw [← List.append_assoc]
          exact .prepend (hb.fits.append hu.fits) hword hv
            (fun _ h => append_mem_many_mul (by decide) h)
            fun _ h => mem_list_iff.2 (.inr ⟨_, mem_optional.2 (.inr h), rfl⟩)
      · exact .pure hend
      · exact .pure hend
      · refine recover_bind (raises_raiseExpected _) stopsAhead_elements Ht hlevels' rfl
          fun _ fs u _ hrec _ => .pure ?_
        rw [List.append_nil]
        exact hrec.fills hb.fits (by rw [hb.symbols_eq]; decide) (by rw [hb.symbols_eq]; decide)
    · refine .ite (fun _ => ?_) fun h => absurd rfl h
      refine recover_bind (raises_raiseExpected _) stopsAhead_elements H hlevels' rfl
        fun _ fs u _ hrec _ => .pure ?_
      rw [List.append_nil]
      exact hrec.fills (.refl _) (by decide) (by decide)

theorem elements_builds (H : Ready limits s) (hlevels : levels above ≤ depth) :
    (elements limits).Ensures s (Builds depth .elements above s) :=
  nodeOutcome_builds .elements H.wf (elementsLoop_fills _ H.opened hlevels) rfl nofun hlevels

/-! ### Brackets -/

/-- A run from inside a pair of brackets through the closing one, whose absence is an error. -/
structure Closes (depth : Nat) (above : List NodeKind) (inside : NodeKind) (close : TokenKind)
    (s : State) (es : List Element) (t : State) : Prop where
  fits : Fits depth above s es t
  symbols_mem : symbols es ∈ [[], [.node inside], [.token close], [.node inside, .token close]]
  closed : t.raised = s.raised → symbols es ∈ [[.token close], [.node inside, .token close]]

/-- A node whose children end in this way, after those of the word `v`. -/
theorem Closes.fills {kind inside : NodeKind} {close : TokenKind} {s t u : State}
    {es fs : List Element} {v : List Symbol} (H' : Closes depth (kind :: above) inside close t fs u)
    (H : Fits depth (kind :: above) s es t) (hv : symbols es = v)
    (hform : ∀ w ∈ [[], [.node inside], [.token close], [.node inside, .token close]],
      v ++ w ∈ kind.form.matches')
    (hprod : ∀ w ∈ [[.token close], [.node inside, .token close]],
      (v ++ w).map .plain ∈ kind.production.matches') :
    Fills depth kind above s (es ++ fs) u := by
  refine ⟨H.append H'.fits, ?_, fun h => ?_⟩
  · rw [symbols_append, hv]
    exact hform _ H'.symbols_mem
  · rw [symbols_append, hv]
    exact hprod _ (H'.closed (H.run.raised_eq H'.fits.run h).2)

theorem closes (inside : NodeKind) (close : TokenKind) {r : Rule Outcome} (H : Ready limits s)
    (hclose : close ≠ .eof)
    (h : s.current ∉ [close, .eof] → r.Ensures s (Builds depth inside above s)) :
    (do
      let ok ← unlessAt [close, .eof] r.succeeds
      let closed ← expect close
      return ok && closed).Ensures s fun _ es t => Closes depth above inside close s es t := by
  have hinside : (unlessAt [close, .eof] r.succeeds).Ensures s fun _ es t =>
      Fits depth above s es t ∧ (symbols es = [] ∨ symbols es = [.node inside]) :=
    .unlessAt (fun _ => ⟨.refl s, .inl rfl⟩) fun hc =>
      .succeeds ((h hc).mono fun _ _ _ _ hb => ⟨hb.fits, .inr hb.symbols_eq⟩)
  refine hinside.bind fun _ es t hr ht => .bind_pure ?_
  obtain ⟨hf, hw⟩ := ht
  refine (expect_takes (hr.wf H.wf) hclose).mono fun _ fs u hr' hu => ?_
  rcases hu with ⟨-, hu⟩ | ⟨-, hu⟩
  · have hword : symbols (es ++ fs) ∈ [[.token close], [.node inside, .token close]] := by
      rw [symbols_append, hu.symbols_eq]
      rcases hw with hw | hw <;> simp only [hw, List.nil_append, List.singleton_append,
        List.mem_cons, true_or, or_true]
    exact ⟨hf.append hu.fits, List.mem_cons_of_mem _ (List.mem_cons_of_mem _ hword),
      fun _ => hword⟩
  · refine ⟨hf.append hu.fits, ?_, fun he => absurd (hr.raised_eq hr' he).2 hu.raised_ne⟩
    rw [symbols_append, hu.symbols_eq, List.append_nil]
    rcases hw with hw | hw <;> simp only [hw, List.mem_cons, true_or, or_true]

theorem arrayBody_fills (H : Ready limits s) (hk : s.kinds = .arrayStart :: ks)
    (hlevels : levels (.array :: above) ≤ depth) :
    (arrayBody limits).Ensures s fun _ es t => Fills depth .array above s es t := by
  refine (bump_takes H.wf hk).bind fun _ es t hr ht => ?_
  have Ht := H.run hr
  exact (closes .elements .arrayEnd Ht nofun fun _ => elements_builds Ht hlevels).mono
    fun _ fs u hr' hu => hu.fills ht.fits ht.symbols_eq (by decide) (by decide)

section
variable (room : Bool) (hroom : room = true ↔ levels above < depth)
include hroom

/-- One array, or past the depth limit an error in its place. -/
theorem array_fits (H : Ready limits s) (hk : s.kinds = .arrayStart :: ks)
    (hlevels : levels (.arrayExpr :: above) ≤ depth) :
    (array limits room).Ensures s fun _ es t => Fits depth (.arrayExpr :: above) s es t ∧
      symbols es ∈ (Form.node .array + Form.node .error).matches' ∧
      (t.raised = s.raised → (symbols es).map .plain ∈ (Form.node .array).matches') := by
  refine isAt_bind_of_kinds H.wf hk ?_
  refine .ite nofun fun _ => .ite (fun hr => ?_) fun hr => ?_
  · have hlevels' : levels (.array :: .arrayExpr :: above) ≤ depth := hroom.1 hr
    have hbody := arrayBody_fills H.opened hk hlevels'
    refine (nodeOutcome_builds .array H.wf hbody rfl nofun hlevels').mono
      fun _ es t _ hb => ⟨hb.fits, ?_⟩
    rw [hb.symbols_eq]
    exact ⟨.inl rfl, fun _ => rfl⟩
  · have hdepth : levels (.arrayExpr :: above) = depth :=
      Nat.le_antisymm hlevels (Nat.le_of_not_lt fun h => hr (hroom.2 h))
    have hdeep : ∀ k' ∈ (NodeKind.arrayExpr :: above).head?.bind deeperStart,
        .arrayStart = k' ∧ levels (.arrayExpr :: above) = depth := by
      intro k' hk'
      cases hk'
      exact ⟨rfl, hdepth⟩
    refine (tooDeep_fits H hk hlevels hdeep).mono fun _ es t _ ht => ⟨ht.1, ?_⟩
    rw [ht.2.2]
    exact ⟨.inr rfl, fun h => absurd h ht.2.1⟩

theorem arrayTail_fits (budget : Nat) (H : Ready limits s)
    (hlevels : levels (.arrayExpr :: above) ≤ depth) :
    (arrayTail limits room budget).Ensures s fun _ es t => Fits depth (.arrayExpr :: above) s es t ∧
      symbols es ∈ (many (token .plus * (Form.node .array + Form.node .error))).matches' ∧
      (t.raised = s.raised →
        (symbols es).map .plain ∈ (many (token .plus * Form.node .array)).matches') := by
  induction budget generalizing s with
  | zero =>
    refine .view_bind <| .ite (fun _ => .bind_pure ?_) fun _ =>
      .pure ⟨.refl s, nil_mem_many, fun _ => nil_mem_many⟩
    refine (raises_complains (raises_raiseHere _)).mono fun _ es t _ ht => ⟨ht.fits, ?_⟩
    rw [ht.symbols_eq]
    exact ⟨nil_mem_many, fun _ => nil_mem_many⟩
  | succ budget ih =>
    refine .view_bind <| .ite (fun h => ?_) fun _ =>
      .pure ⟨.refl s, nil_mem_many, fun _ => nil_mem_many⟩
    obtain ⟨ks, hk⟩ := H.wf.exists_kinds_two h nofun nofun
    refine (bump_takes H.wf hk).bind fun _ es t hr ht => ?_
    have Ht := H.run hr
    refine (array_fits room hroom Ht (ht.kinds_eq_of hk) hlevels).bind
      fun _ fs u hr' hu => .bind_pure ?_
    refine (ih (Ht.run hr')).mono fun _ gs v hr'' hv => ?_
    obtain ⟨hf, hform, hprod⟩ := hu
    obtain ⟨hf', hform', hprod'⟩ := hv
    have hword : symbols (es ++ (fs ++ gs)) = [.token .plus] ++ symbols fs ++ symbols gs := by
      rw [← List.append_assoc, symbols_append, symbols_append, ht.symbols_eq]
    refine ⟨ht.fits.append (hf.append hf'), ?_, fun he => ?_⟩
    · rw [hword]
      exact append_mem_many (append_mem_mul rfl hform) hform'
    · obtain ⟨hfs, hgs⟩ := hr'.raised_eq hr'' (hr.raised_eq (hr'.trans hr'') he).2
      rw [hword, List.map_append, List.map_append]
      exact append_mem_many (append_mem_mul rfl (hprod hfs)) (hprod' hgs)

theorem arrayExpr_builds (H : Ready limits s) (hk : s.kinds = .arrayStart :: ks)
    (hlevels : levels above ≤ depth) :
    (arrayExpr limits room).Ensures s (Builds depth .arrayExpr above s) := by
  refine isAt_bind_of_kinds H.wf hk ?_
  refine nodeOutcome_builds .arrayExpr H.wf ?_ rfl nofun hlevels
  have hlevels' : levels (.arrayExpr :: above) ≤ depth := hlevels
  refine (array_fits room hroom H.opened hk hlevels').bind fun _ es t hr ht => .bind_pure ?_
  refine (arrayTail_fits room hroom _ (H.opened.run hr) hlevels').mono fun _ fs u hr' hu => ?_
  obtain ⟨hf, hform, hprod⟩ := ht
  obtain ⟨hf', hform', hprod'⟩ := hu
  refine ⟨hf.append hf', ?_, fun he => ?_⟩
  · rw [symbols_append]
    exact append_mem_mul hform hform'
  · obtain ⟨hes, hfs⟩ := hr.raised_eq hr' he
    rw [symbols_append, List.map_append]
    exact append_mem_mul (hprod hes) (hprod' hfs)

end

end Rule

end Blueprint
