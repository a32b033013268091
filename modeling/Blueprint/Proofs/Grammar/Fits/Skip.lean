import Blueprint.Proofs.Grammar.Fits

/-!
# What skipping leaves behind

Whatever ends the skipping, an error node holds tokens and nothing else, one of them at least, and
never the end of the file.
-/

namespace Blueprint

open Element NodeKind

/-- Tokens and nothing else, the end of the file not among them. -/
def Flat (es : List Element) : Prop :=
  ∃ ts : List Token, es = ts.map .token ∧ ∀ t ∈ ts, t.kind ≠ .eof

namespace Flat

variable {es fs : List Element}

theorem nil : Flat [] := ⟨[], rfl, fun _ h => nomatch h⟩

theorem append (H : Flat es) (H' : Flat fs) : Flat (es ++ fs) := by
  obtain ⟨ts, rfl, ht⟩ := H
  obtain ⟨us, rfl, hu⟩ := H'
  exact ⟨ts ++ us, List.map_append.symm, fun t h => (List.mem_append.1 h).elim (ht t) (hu t)⟩

theorem shaped (H : Flat es) {depth : Nat} {above : List NodeKind} :
    Everywhere (Shaped depth) above es := by
  obtain ⟨ts, rfl, -⟩ := H
  exact .map_token ts

theorem symbols_mem_many (H : Flat es) : symbols es ∈ (Form.many .anyToken).matches' := by
  obtain ⟨ts, rfl, H⟩ := H
  induction ts with
  | nil => exact Form.nil_mem_many
  | cons t ts ih =>
    have ih := ih fun u hu => H u (.tail _ hu)
    rw [List.map_cons, ← List.singleton_append, symbols_append]
    cases ht : t.isTrivia with
    | true =>
      have hnil : symbols [.token t] = [] :=
        symbols_map_token fun u hu => List.mem_singleton.1 hu ▸ ht
      rwa [hnil]
    | false =>
      rw [symbols_token ht]
      exact Form.append_mem_many (Form.token_mem_anyToken (H t (.head _)) ht) ih

/-- Some tokens that are not all trivia make an error node. -/
theorem symbols_mem_form (H : Flat es) (h : symbols es ≠ []) :
    symbols es ∈ NodeKind.error.form.matches' :=
  Form.mem_oneOrMore_iff.2 ((Form.mem_many_iff.1 H.symbols_mem_many).resolve_left h)

end Flat

namespace Rule

open Ensures

variable {α : Type} {depth : Nat} {above : List NodeKind} {s : State} {k : TokenKind}
  {ks : List TokenKind}

theorem bump_flat (H : s.WF) : bump.Ensures s fun _ es _ => Flat es := by
  refine .of_runs Runs.bump ?_
  cases h : s.rest with
  | nil => rw [bump_nil h]; exact .nil
  | cons t ts =>
    rw [bump_cons h]
    refine ⟨s.pending ++ [t], by rw [List.map_append]; rfl, fun u hu => ?_⟩
    rcases List.mem_append.1 hu with hu | hu
    · intro he
      have htrivia := H.isTrivia_pending u hu
      rw [Token.isTrivia, he] at htrivia
      cases htrivia
    · exact List.mem_singleton.1 hu ▸ H.kind_ne_eof t (by rw [h]; exact .head _)

theorem skipLoop_flat (stop : State → Bool) (budget n : Nat) (H : s.WF) :
    (skipLoop stop budget n).Ensures s fun _ es _ => Flat es := by
  induction budget generalizing s n with
  | zero => exact .pure .nil
  | succ budget ih =>
    refine .view_bind <| .ite (fun _ => .pure .nil) fun _ => .view_bind ?_
    exact (bump_flat H).bind fun _ es t hr hes =>
      (ih _ (hr.wf H)).mono fun _ fs u _ hfs => hes.append hfs

theorem bumpGroup_flat (budget n : Nat) (H : s.WF) :
    (bumpGroup budget n).Ensures s fun _ es _ => Flat es := by
  induction budget generalizing s n with
  | zero => exact .pure .nil
  | succ budget ih =>
    refine .view_bind <| .ite (fun _ => .pure .nil) fun _ => .view_bind ?_
    refine (bump_flat H).bind fun _ es t hr hes =>
      .ite (fun _ => .pure (hes.append .nil)) fun _ => ?_
    exact (ih _ (hr.wf H)).mono fun _ fs u _ hfs => hes.append hfs

theorem bumpChain_flat (limits : Limits) (budget : Nat) (H : s.WF) :
    (bumpChain limits budget).Ensures s fun _ es _ => Flat es := by
  induction budget generalizing s with
  | zero => exact .pure .nil
  | succ budget ih =>
    refine .view_bind <| .ite (fun _ => .pure .nil) fun _ => ?_
    refine (bumpGroup_flat _ _ H).bind fun _ es t hr hes => .view_bind <|
      .ite (fun _ => ?_) fun _ => .pure (hes.append .nil)
    exact (bump_flat (hr.wf H)).bind fun _ fs u hr' hfs =>
      (ih (hr'.wf (hr.wf H))).mono fun _ gs v _ hgs => hes.append (hfs.append hgs)

theorem bumpAll_flat (ts : List Token) (H : s.WF) :
    (bumpAll ts).Ensures s fun _ es _ => Flat es := by
  induction ts generalizing s with
  | nil => exact .pure .nil
  | cons t ts ih =>
    exact (bump_flat H).bind fun _ es u hr hes =>
      (ih (hr.wf H)).mono fun _ fs v _ hfs => hes.append hfs

/-- Something that skips the current token `k` and maybe others. -/
def SkipsFrom (k : TokenKind) (r : Rule α) (s : State) : Prop :=
  r.Ensures s fun _ es _ => Flat es ∧ (symbols es).head? = some (.token k)

theorem bump_skipsFrom (H : s.WF) (hk : s.kinds = k :: ks) : SkipsFrom k bump s := by
  refine ⟨(bump_flat H).1, (bump_flat H).2, ?_⟩
  rw [(bump_takes H hk).2.symbols_eq]
  rfl

/-- Consumes the current token, then goes on with something that skips. -/
theorem bump_bind_skipsFrom {r : Rule α} (H : s.WF) (hk : s.kinds = k :: ks)
    (h : ∀ es t, Run s es t → r.Ensures t fun _ es _ => Flat es) :
    SkipsFrom k (do bump; r) s := by
  refine Ensures.bind (bump_skipsFrom H hk) fun _ es t hr hes => (h es t hr).mono
    fun _ fs u _ hfs => ⟨hes.1.append hfs, ?_⟩
  rw [symbols_append, List.head?_append, hes.2]
  rfl

theorem node_error_skips {body : Rule α} (H : s.WF) (h : SkipsFrom k body s.opened)
    (hlevels : levels above ≤ depth)
    (hdeep : ∀ k' ∈ above.head?.bind deeperStart, k = k' ∧ levels above = depth) :
    (node .error body).Ensures s fun _ es t =>
      Skips depth above s es t ∧ symbols es = [.node .error] := by
  refine .node (Ensures.mono h fun _ es t hr ⟨hflat, hhead⟩ => ?_)
  have hshaped : Shaped depth .error above (symbols es) := by
    refine ⟨hflat.symbols_mem_form fun he => ?_, hlevels, fun _ k' hk' => ?_⟩
    · rw [he] at hhead
      cases hhead
    · obtain ⟨rfl, hd⟩ := hdeep k' hk'
      exact ⟨hhead, hd⟩
  have hes := symbols_pending H (.node s.nodes .error (t.nodeSpan es) es)
  exact ⟨⟨.node .error hr, (Everywhere.map_token _).append (.node hshaped hflat.shaped .nil),
    .inr hes⟩, hes⟩

/-! ### Rules that skip -/

variable {limits : Limits}

theorem bumpGroup_skipsFrom (n : Nat) (H : Ready limits s) (hk : s.kinds = k :: ks) :
    SkipsFrom k (bumpGroup limits.maxIterations n) s := by
  obtain ⟨budget, hb⟩ := H.exists_maxIterations hk
  rw [hb]
  refine Ensures.view_bind <| .ite (fun h => ?_) fun _ => .view_bind ?_
  · rw [H.wf.atEof_iff, hk] at h
    cases h
  · exact bump_bind_skipsFrom H.wf hk fun es t hr =>
      .ite (fun _ => .pure .nil) fun _ => bumpGroup_flat _ _ (hr.wf H.wf)

theorem bumpChain_skipsFrom (H : Ready limits s) (hk : s.kinds = k :: ks) :
    SkipsFrom k (bumpChain limits limits.maxIterations) s := by
  obtain ⟨budget, hb⟩ := H.exists_maxIterations hk
  rw [hb]
  refine Ensures.view_bind <| .ite (fun h => ?_) fun _ => ?_
  · rw [H.wf.atEof_iff, hk] at h
    cases h
  · refine Ensures.bind (bumpGroup_skipsFrom 0 H hk) fun _ es t hr hes => .view_bind ?_
    have hrest : (if t.atTail = true then do bump; bumpChain limits budget
        else return () : Rule Unit).Ensures t fun _ fs _ => Flat fs :=
      .ite (fun _ => (bump_flat (hr.wf H.wf)).bind fun _ fs u hr' hfs =>
        (bumpChain_flat limits _ (hr'.wf (hr.wf H.wf))).mono fun _ gs _ _ hgs => hfs.append hgs)
        fun _ => .pure .nil
    refine hrest.mono fun _ fs u _ hfs => ⟨hes.1.append hfs, ?_⟩
    rw [symbols_append, List.head?_append, hes.2]
    rfl

theorem skipGroup_skips (H : Ready limits s) (hk : s.kinds = k :: ks)
    (hlevels : levels above ≤ depth)
    (hdeep : ∀ k' ∈ above.head?.bind deeperStart, k = k' ∧ levels above = depth) :
    (skipGroup limits).Ensures s fun _ es t =>
      Skips depth above s es t ∧ symbols es = [.node .error] := by
  exact (node_error_skips H.wf (bumpGroup_skipsFrom 0 H.opened hk) hlevels hdeep).bind_pure

theorem skipChain_skips (H : Ready limits s) (hk : s.kinds = k :: ks)
    (hlevels : levels above ≤ depth)
    (hdeep : ∀ k' ∈ above.head?.bind deeperStart, k = k' ∧ levels above = depth) :
    (skipChain limits).Ensures s fun _ es t =>
      Skips depth above s es t ∧ symbols es = [.node .error] :=
  (node_error_skips H.wf (bumpChain_skipsFrom H.opened hk) hlevels hdeep).bind_pure

/-- A condition on the tokens to come, and on nothing that a raised error or a node started in front
of them changes for the better. -/
structure StopsAhead (stop : State → Bool) : Prop where
  raise : ∀ (s : State) (e : SyntaxError), stop { s with raised := e :: s.raised } = stop s
  opened : ∀ s : State, stop s = false → stop s.opened = false

/-- There is something to skip unless the skipping stops at once. -/
theorem skipUntil_skips {stop : State → Bool} (hstop : StopsAhead stop) (H : Ready limits s)
    (hlevels : levels above ≤ depth) (habove : above.head?.bind deeperStart = none) :
    (skipUntil limits stop).Ensures s fun _ es t => Skips depth above s es t ∧
      (s.kinds ≠ [] → stop s = false → symbols es = [.node .error]) := by
  refine .view_bind <| .ite (fun h => .pure ⟨⟨.refl s, .nil, .inl rfl⟩, fun hk hs => ?_⟩)
    fun h => ?_
  · rw [hs, Bool.or_false, H.wf.atEof_iff] at h
    exact absurd h hk
  · rw [Bool.or_eq_true, not_or, H.wf.atEof_iff, Bool.not_eq_true] at h
    obtain ⟨k, ks, hk⟩ := List.exists_cons_of_ne_nil h.1
    obtain ⟨budget, hb⟩ := H.exists_maxIterations hk
    have hloop : SkipsFrom k (skipLoop stop limits.maxIterations 0) s.opened := by
      rw [hb]
      refine Ensures.view_bind <| .ite (fun h' => ?_) fun _ => .view_bind ?_
      · rw [hstop.opened s h.2, Bool.and_false, Bool.or_false, H.wf.opened.atEof_iff] at h'
        exact absurd h' h.1
      · exact bump_bind_skipsFrom H.wf.opened hk fun es t hr =>
          skipLoop_flat _ _ _ (hr.wf H.wf.opened)
    have hnode := node_error_skips H.wf hloop hlevels fun k' hk' => by rw [habove] at hk'; cases hk'
    exact .bind_pure (hnode.mono fun _ es t _ hs => ⟨hs.1, fun _ _ => hs.2⟩)

/-! ### Recovery: an error is raised and something is skipped -/

/-- A run that raises an error and skips over what it is about, unless there is nothing to skip. -/
structure Recovers (depth : Nat) (above : List NodeKind) (s : State) (es : List Element)
    (t : State) : Prop where
  fits : Fits depth above s es t
  raised_ne : t.raised ≠ s.raised
  symbols_eq : symbols es = [] ∨ symbols es = [.node .error]

/-- Where an error is skipped, the children need not follow the grammar. -/
theorem Recovers.fills {kind : NodeKind} {s t u : State} {es fs : List Element}
    (H' : Recovers depth (kind :: above) t fs u) (H : Fits depth (kind :: above) s es t)
    (h : symbols es ∈ kind.form.matches')
    (h' : symbols es ++ [.node .error] ∈ kind.form.matches') :
    Fills depth kind above s (es ++ fs) u := by
  refine ⟨H.append H'.fits, ?_, fun hu => absurd (H.run.raised_eq H'.fits.run hu).2 H'.raised_ne⟩
  rcases H'.symbols_eq with hfs | hfs
  · rwa [symbols_append, hfs, List.append_nil]
  · rwa [symbols_append, hfs]

theorem recover_bind {r : Rule Unit} {stop : State → Bool} {next : Bool → Rule α}
    {q : α → List Element → State → Prop} (hr : r.Raises) (hstop : StopsAhead stop)
    (H : Ready limits s) (hlevels : levels above ≤ depth)
    (habove : above.head?.bind deeperStart = none)
    (h : ∀ b es t, Run s es t → Recovers depth above s es t →
      (s.kinds ≠ [] → stop s = false → symbols es = [.node .error]) →
      (next b).Ensures t fun a fs u => q a (es ++ fs) u) :
    (do r; next (← skipUntil limits stop)).Ensures s q := by
  have hraise : r.Ensures s fun _ es t => ∃ e, es = [] ∧ t = { s with raised := e :: s.raised } :=
    of_raises hr fun e => ⟨e, rfl, rfl⟩
  refine hraise.bind fun _ es t hrun ht => ?_
  obtain ⟨e, rfl, rfl⟩ := ht
  refine (skipUntil_skips hstop (H.run hrun) hlevels habove).bind fun b fs u hrun' hs => ?_
  have hne : e :: s.raised ≠ s.raised := List.cons_ne_self _ _
  have hfits : Fits depth above s fs u := (Fits.raise s e).skip hne hs.1
  refine h b fs u (hrun.trans hrun') ⟨hfits, fun hu => ?_, hs.1.symbols_eq⟩ fun hk hst => ?_
  · exact hne (hrun.raised_eq hrun' hu).1
  · exact hs.2 hk ((hstop.raise s e).trans hst)

/-- An error is raised about what is then skipped. -/
theorem complain_bind {r : Rule Unit} {skip : Rule α} (hr : r.Raises) (H : Ready limits s)
    (h : ∀ t, Ready limits t → t.kinds = s.kinds → skip.Ensures t fun _ es u =>
      Skips depth above t es u ∧ symbols es = [.node .error]) :
    (r >>= fun _ => skip).Ensures s fun _ es t =>
      Fits depth above s es t ∧ t.raised ≠ s.raised ∧ symbols es = [.node .error] := by
  refine (raises_complains hr).bind fun _ es t hr ht => ?_
  refine (h t (H.run hr) ht.kinds_eq).mono fun _ fs u hr' hu => ?_
  rw [symbols_append, ht.symbols_eq, hu.2]
  exact ⟨ht.fits.skip ht.raised_ne hu.1, fun h => ht.raised_ne (hr.raised_eq hr' h).1, rfl⟩

/-- A construct past the depth limit is an error as a whole. -/
theorem tooDeep_fits (H : Ready limits s) (hk : s.kinds = k :: ks) (hlevels : levels above ≤ depth)
    (hdeep : ∀ k' ∈ above.head?.bind deeperStart, k = k' ∧ levels above = depth) :
    (tooDeep limits).Ensures s fun _ es t =>
      Fits depth above s es t ∧ t.raised ≠ s.raised ∧ symbols es = [.node .error] :=
  complain_bind (raises_raiseHere _) H fun _ Ht ht =>
    .bind_pure (skipGroup_skips Ht (ht.trans hk) hlevels hdeep)

end Rule

end Blueprint
