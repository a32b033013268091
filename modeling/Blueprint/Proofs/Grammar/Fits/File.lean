import Blueprint.Proofs.Grammar.Fits.Value

/-!
# Files fit the grammar

The children of a file are in shape, and the tokens of a file that raises no error are derived from
the start of the grammar (`fileBody_fits`).
-/

namespace Blueprint

open Element NodeKind Form

namespace Rule

open Ensures

variable {limits : Limits} {room : Nat} {above : List NodeKind} {s : State} {ks : List TokenKind}

/-! ### Items -/

theorem blueprint_builds (H : Ready limits s) (hk : s.kinds = .blueprintTypeName :: ks)
    (hroom : levels above + room = limits.maxDepth) :
    (blueprint limits room).Ensures s (Builds limits.maxDepth .blueprint above s) := by
  have hlevels : levels (.blueprint :: above) ≤ limits.maxDepth := Nat.le.intro hroom
  have hlevels' : levels (.blueprintType :: .blueprint :: above) ≤ limits.maxDepth := hlevels
  refine isAt_bind_of_kinds H.wf hk ?_
  refine nodeOutcome_builds .blueprint H.wf ?_ rfl nofun hlevels
  refine (node_bump_takes .blueprintType H.opened.wf hk rfl nofun hlevels' (by decide)).bind
    fun _ es t hr ht => ?_
  obtain ⟨hname, hword, hkinds, -⟩ := ht
  -- A word is a module type only in front of a brace.
  obtain ⟨ks', hbrace⟩ : ∃ ks', t.kinds = .objectStart :: ks' := by
    have hhead := H.wf.braces t.kinds (by rw [State.kinds_opened] at hkinds; rw [hkinds])
    cases hkt : t.kinds with
    | nil => rw [hkt] at hhead; cases hhead
    | cons k ks' => rw [hkt] at hhead; cases hhead; exact ⟨ks', rfl⟩
  have hroom' : levels (.pair :: .members :: .blueprint :: above) + room = limits.maxDepth := hroom
  refine (body_closes (makesValue nofun hroom') (H.opened.run hr) hbrace hlevels).mono
    fun _ fs u _ hu => ?_
  obtain ⟨fs, gs, v, rfl, hv, hclose⟩ := hu
  rw [← List.append_assoc]
  have hword' : symbols (es ++ fs) = [.node .blueprintType, .token .objectStart] := by
    rw [symbols_append, hword, hv.symbols_eq]
    rfl
  exact hclose.fills (hname.append hv.fits) hword' (by decide) (by decide)

theorem eatAssignment_takes (H : s.WF) :
    eatAssignment.Ensures s fun ok es t =>
      ok = true ∧ (Takes .equals s es t ∨ Takes .plusEquals s es t) ∨
        ok = false ∧ es = [] ∧ t = s := by
  refine eat_bind H nofun (fun es t _ ht => .pure (.inl ⟨rfl, .inl ?_⟩)) fun _ => ?_
  · rwa [List.append_nil]
  · refine .ite nofun fun _ => (eat_takes H (by decide)).mono fun ok es t _ ht => ?_
    rcases ht with ⟨hok, ht⟩ | ⟨hok, -, hes, ht⟩
    · exact .inl ⟨hok, .inr ht⟩
    · exact .inr ⟨hok, hes, ht⟩

theorem variableDef_builds (H : Ready limits s) (hk : s.kinds = .variableName :: ks)
    (hroom : levels above + room = limits.maxDepth) :
    (variableDef limits room).Ensures s (Builds limits.maxDepth .variable above s) := by
  have hlevels : levels (.variable :: above) ≤ limits.maxDepth := Nat.le.intro hroom
  have hroom' : levels (.variable :: above) + room = limits.maxDepth := hroom
  refine isAt_bind_of_kinds H.wf hk (.view_bind ?_)
  refine nodeOutcome_builds .variable H.wf ?_ rfl nofun hlevels
  refine (bump_takes H.wf.opened hk).bind fun _ es t hr ht => ?_
  have Ht := H.opened.run hr
  refine (eatAssignment_takes Ht.wf).bind fun ok fs u hr' hu => ?_
  have Hu := Ht.run hr'
  rcases hu with ⟨rfl, hu⟩ | ⟨rfl, rfl, rfl⟩
  · refine .ite (fun _ => ?_) fun h => absurd rfl h
    have hword : symbols (es ++ fs) = [.token .variableName, .token .equals] ∨
        symbols (es ++ fs) = [.token .variableName, .token .plusEquals] := by
      rw [symbols_append, ht.symbols_eq]
      rcases hu with hu | hu
      · exact .inl (by rw [hu.symbols_eq]; rfl)
      · exact .inr (by rw [hu.symbols_eq]; rfl)
    have hfits : Fits limits.maxDepth (.variable :: above) s.opened (es ++ fs) u :=
      ht.fits.append (hu.elim (·.fits) (·.fits))
    refine (makesValue (by nofun) hroom' u Hu).bind fun o gs v hr'' hv => ?_
    rcases hv with hv | ⟨rfl, rfl, rfl⟩
    · have hdone : Fills limits.maxDepth .variable above s.opened (es ++ (fs ++ (gs ++ []))) v := by
        rw [List.append_nil, ← List.append_assoc]
        rcases hword with hword | hword <;>
          exact .of_symbols (hfits.append hv.fits) (by rw [symbols_append, hword, hv.symbols_eq])
            (by decide) fun _ => by decide
      cases o with
      | complete => exact .pure hdone
      | incomplete => exact .pure hdone
      | noMatch => cases hv.isMatch
    · refine .bind_pure ((raises_complains (raises_raiseMissingValue _)).mono
        fun _ gs v hr'' hv => ?_)
      have hword' : symbols (es ++ (fs ++ gs)) = symbols (es ++ fs) := by
        rw [← List.append_assoc, symbols_append (es ++ fs), hv.symbols_eq, List.append_nil]
      rw [List.nil_append]
      refine .of_symbols (by rw [← List.append_assoc]; exact hfits.append hv.fits) hword' ?_
        fun h => absurd (hfits.run.raised_eq hr'' h).2 hv.raised_ne
      rcases hword with hword | hword <;> rw [hword] <;> decide
  · refine .ite nofun fun _ => .bind_pure ?_
    refine (raises_complains (raises_raiseExpected _)).mono fun _ fs u hr'' hu => ?_
    rw [List.nil_append]
    exact .of_symbols (ht.fits.append hu.fits)
      (by rw [symbols_append, ht.symbols_eq, hu.symbols_eq]) (by decide)
      fun h => absurd (hr.raised_eq hr'' h).2 hu.raised_ne

/-- A module, a variable or an error. -/
def itemOrError : Form := Form.node .blueprint + Form.node .variable + Form.node .error

/-- A run that makes items of a file, and errors between them. -/
structure MakesItems (depth : Nat) (s : State) (es : List Element) (t : State) : Prop where
  fits : Fits depth [.file] s es t
  form : symbols es ∈ (many itemOrError).matches'
  production : t.raised = s.raised → (symbols es).map .plain ∈ NodeKind.file.production.matches'

namespace MakesItems

variable {depth : Nat} {t u : State} {es fs : List Element}

theorem refl (s : State) : MakesItems depth s [] s :=
  ⟨.refl s, nil_mem_many, fun _ => nil_mem_many⟩

theorem append (H : MakesItems depth s es t) (H' : MakesItems depth t fs u) :
    MakesItems depth s (es ++ fs) u := by
  refine ⟨H.fits.append H'.fits, ?_, fun h => ?_⟩
  · rw [symbols_append]
    exact many_append_mem_many H.form H'.form
  · obtain ⟨hst, htu⟩ := H.fits.run.raised_eq H'.fits.run h
    rw [symbols_append, List.map_append]
    exact many_append_mem_many (H.production hst) (H'.production htu)

theorem of_raised_ne (H : Fits depth [.file] s es t) (hne : t.raised ≠ s.raised)
    (hw : symbols es = [] ∨ symbols es = [.node .error]) : MakesItems depth s es t := by
  refine ⟨H, ?_, fun h => absurd h hne⟩
  rcases hw with hw | hw <;> rw [hw] <;> decide

end MakesItems

theorem stopsAhead_item : StopsAhead fun s : State =>
    [TokenKind.blueprintTypeName, .variableName].contains s.current :=
  ⟨fun _ _ => rfl, fun _ h => h⟩

theorem item_builds (H : Ready limits s) :
    (item limits limits.maxDepth).Ensures s fun o es t =>
      (∃ kind, (kind = .blueprint ∨ kind = .variable) ∧
        Builds limits.maxDepth kind [.file] s o es t) ∨ o = .noMatch ∧ es = [] ∧ t = s := by
  have hroom : levels [.file] + limits.maxDepth = limits.maxDepth := Nat.zero_add _
  refine .view_bind ?_
  split
  · next hc =>
    obtain ⟨ks, hk⟩ := H.wf.exists_kinds hc nofun
    exact (blueprint_builds H hk hroom).mono fun _ _ _ _ hb => .inl ⟨_, .inl rfl, hb⟩
  · next hc =>
    obtain ⟨ks, hk⟩ := H.wf.exists_kinds hc nofun
    exact (variableDef_builds H hk hroom).mono fun _ _ _ _ hb => .inl ⟨_, .inr rfl, hb⟩
  · exact .pure (.inr ⟨rfl, rfl, rfl⟩)

theorem itemOrSkip_makes (H : Ready limits s) :
    (itemOrSkip limits limits.maxDepth).Ensures s fun _ es t =>
      MakesItems limits.maxDepth s es t := by
  refine (item_builds H).bind fun o es t hr ht => ?_
  rcases ht with ⟨kind, hkind, hb⟩ | ⟨rfl, rfl, rfl⟩
  · rw [hb.isMatch]
    refine .pure ?_
    rw [List.append_nil]
    refine ⟨hb.fits, ?_, fun _ => ?_⟩ <;> rw [hb.symbols_eq] <;> rcases hkind with rfl | rfl <;>
      decide
  · refine .ite nofun fun _ => ?_
    have hlevels : levels [.file] ≤ limits.maxDepth := Nat.zero_le _
    refine recover_bind (raises_raiseExpected _) stopsAhead_item H hlevels rfl
      fun _ es u _ hrec _ => .pure ?_
    rw [List.append_nil, List.nil_append]
    exact .of_raised_ne hrec.fits hrec.raised_ne hrec.symbols_eq

theorem forceProgress_makes (before : Nat) (H : Ready limits s)
    (h : s.position = before → s.kinds ≠ []) :
    (forceProgress before).Ensures s fun _ es t => MakesItems limits.maxDepth s es t := by
  refine .view_bind <| .ite (fun hp => ?_) fun _ => .pure (.refl s)
  obtain ⟨k, ks, hk⟩ := List.exists_cons_of_ne_nil (h (eq_of_beq hp))
  have hskip : ∀ t, Ready limits t → t.kinds = s.kinds →
      (do let _ ← node .error bump; return () : Rule Unit).Ensures t fun _ es u =>
        Skips limits.maxDepth [.file] t es u ∧ symbols es = [.node .error] := by
    intro t Ht ht
    have hlevels : levels [.file] ≤ limits.maxDepth := Nat.zero_le _
    exact .bind_pure (node_error_skips Ht.wf (bump_skipsFrom Ht.wf.opened (ht.trans hk)) hlevels
      nofun)
  refine (complain_bind (raises_raiseHere _) H hskip).mono fun _ es t _ ht => ?_
  exact .of_raised_ne ht.1 ht.2.1 (.inr ht.2.2)

theorem items_makes (budget : Nat) (H : Ready limits s) :
    (items limits limits.maxDepth budget).Ensures s fun _ es t =>
      MakesItems limits.maxDepth s es t ∧ (t.raised = s.raised → t.kinds = []) := by
  induction budget generalizing s with
  | zero =>
    refine .view_bind <| .ite (fun h => .pure ⟨.refl s, fun _ => H.wf.atEof_iff.1 h⟩) fun _ => ?_
    refine (raises_complains (raises_raiseHere _)).mono fun _ es t _ ht => ?_
    exact ⟨.of_raised_ne ht.fits ht.raised_ne (.inl ht.symbols_eq), fun h => absurd h ht.raised_ne⟩
  | succ budget ih =>
    refine .view_bind <| .ite (fun h => .pure ⟨.refl s, fun _ => H.wf.atEof_iff.1 h⟩) fun h => ?_
    have hs : s.kinds ≠ [] := fun he => h (H.wf.atEof_iff.2 he)
    refine .view_bind <| (itemOrSkip_makes H).bind fun _ es t hr ht => ?_
    have hplace : t.position = s.position → t.kinds ≠ [] := fun hp => by
      rwa [State.kinds, hr.rest_eq_of_position H.wf hp]
    refine (forceProgress_makes _ (H.run hr) hplace).bind fun _ fs u hr' hu => ?_
    refine (ih ((H.run hr).run hr')).mono fun _ gs v hr'' hv => ?_
    rw [← List.append_assoc]
    refine ⟨(ht.append hu).append hv.1, fun he => hv.2 ((hr.trans hr').raised_eq hr'' he).2⟩

/-! ### The whole file -/

theorem leftover_makes (H : Ready limits s) (hk : s.kinds ≠ []) :
    leftover.Ensures s fun _ es t =>
      Skips limits.maxDepth [.file] s es t ∧ symbols es = [.node .error] := by
  obtain ⟨k, ks, hk⟩ := List.exists_cons_of_ne_nil hk
  obtain ⟨t, ts, hrest, -⟩ := H.wf.exists_rest hk
  refine .view_bind <| .ite (fun h => ?_) fun _ => .view_bind ?_
  · rw [H.wf.atEof_iff, hk] at h
    cases h
  · have hlevels : levels [.file] ≤ limits.maxDepth := Nat.zero_le _
    have hall : SkipsFrom k (bumpAll s.rest) s.opened := by
      rw [hrest]
      exact bump_bind_skipsFrom H.wf.opened hk fun es t hr => bumpAll_flat _ (hr.wf H.wf.opened)
    exact .bind_pure (node_error_skips H.wf hall hlevels nofun)

theorem contents_makes (H : Ready limits s) :
    (contents limits limits.maxDepth limits.maxIterations).Ensures s fun _ es t =>
      MakesItems limits.maxDepth s es t ∧ t.kinds = [] := by
  refine (items_makes limits.maxIterations H).bind fun _ es t hr ht => ?_
  obtain ⟨ht, hend⟩ := ht
  have Ht := H.run hr
  by_cases hk : t.kinds = []
  · refine .view_bind <| .ite (fun _ => .pure ⟨?_, hk⟩) fun h => absurd (Ht.wf.atEof_iff.2 hk) h
    rwa [List.append_nil]
  · have hne : t.raised ≠ s.raised := fun h => hk (hend h)
    refine ((leftover_makes Ht hk).and (leftover_ensures Ht.wf)).mono fun _ fs u hr' hu => ?_
    obtain ⟨⟨hskip, hword⟩, hrest⟩ := hu
    refine ⟨⟨ht.fits.skip hne hskip, ?_, fun h => absurd (hr.raised_eq hr' h).1 hne⟩, ?_⟩
    · rw [symbols_append, hword]
      exact many_append_mem_many ht.form (by decide)
    · exact ((hr'.wf Ht.wf).kinds_eq_nil_iff).2 hrest

/-- The children of a file are in shape, and the tokens of a file without errors are derived. -/
theorem fileBody_fits (H : Ready limits s) :
    let r := fileBody limits limits.maxDepth s
    symbols r.emitted ∈ NodeKind.file.form.matches' ∧
      Everywhere (Shaped limits.maxDepth) [.file] r.emitted ∧
      (r.state.raised = s.raised → Derives limits.maxDepth [] [.node .file] s.kinds) := by
  obtain ⟨hr, hm, hend⟩ := contents_makes H
  have Hr := H.run hr
  rw [fileBody_apply]
  refine ⟨?_, hm.fits.shaped.append ((Everywhere.map_token _).append (.token .nil)), fun h => ?_⟩
  · rw [symbols_append, symbols_pending Hr.wf, symbols_token Hr.wf.isTrivia_eof, Hr.wf.kind_eof]
    exact append_mem_mul hm.form rfl
  · obtain ⟨w, hw, Hw⟩ := hm.fits.derives h
    rw [hw, hend, List.append_nil]
    exact .single (hm.production h) (Nat.zero_le _) Hw

end Rule

/-- The state in which the children of the root start. -/
def State.start (source : String) : State :=
  { State.ofStream (.ofChars source.toList) with nodes := 1 }

theorem State.kinds_start (source : String) :
    (State.start source).kinds = Token.kindsOf (TokenStream.ofChars source.toList).body :=
  Token.kindsOf_dropWhile

theorem State.wf_start (source : String) : (State.start source).WF :=
  { State.wf_ofStream source.toList with }

/-- The tree and the errors of a text are a matter of what its file has inside. -/
theorem parse_congr {source : String} {limits limits' : Limits}
    (h : Rule.fileBody limits limits.maxDepth (State.start source) =
      Rule.fileBody limits' limits'.maxDepth (State.start source)) :
    parse source limits = parse source limits' := by
  have hparse (limits : Limits) : parse source limits =
      (fun r : Reply Unit => (⟨⟨source, tokenize source, ⟨0, .file,
        r.state.nodeSpan r.emitted, r.emitted⟩⟩, r.state.errors⟩ : Parse))
          (Rule.fileBody limits limits.maxDepth (State.start source)) := rfl
  rw [hparse, hparse, h]

theorem ready_start {source : String} {limits : Limits}
    (h : (tokenize source).length ≤ limits.maxIterations) : Ready limits (State.start source) where
  wf := State.wf_start source
  length_le := by
    rw [State.kinds_start]
    refine Nat.le_trans Token.length_kindsOf_le (Nat.le_trans ?_ h)
    rw [tokenize, TokenStream.toList, List.length_append]
    exact Nat.le_add_right _ _

end Blueprint
