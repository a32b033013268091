import Blueprint.Proofs.Grammar.Parses.Members

/-!
# Damaged entries are parsed

An entry is damaged when what stands behind its name is no `=` with a value, up to the comma or the
brace that ends the entry. It is one pair with its name, the `=` if there is one, and an error node
over the rest (`damaged`), and one error is raised (`Yields.pair`). What the skipping counts is the
bracket depth, and it is back at zero just where the brackets in front are balanced
(`Balanced.depth_cases`).
-/

namespace Blueprint

open NodeKind Form Token Sketch

/-! ### The bracket depth -/

namespace Balanced

variable {ks ps qs : List TokenKind}

open Rule

/-- Balanced brackets leave the depth as it is. -/
theorem foldl_depthAfter (H : Balanced ks) (n : Nat) : ks.foldl depthAfter n = n := by
  induction H generalizing n with
  | nil => rfl
  | cons hk _ ih => rw [List.foldl_cons, depthAfter_of_not_bracket hk, ih]
  | group h _ _ ih ih' =>
    obtain ⟨hopen, hclose⟩ := depthAfter_closer (n := n) h
    rw [List.foldl_cons, List.foldl_append, List.foldl_cons, hopen, ih, hclose, ih']

/-- Inside balanced brackets the depth is never less than in front of them, and where it is the same
the brackets on both sides are balanced. -/
theorem depth_cases (H : Balanced (ps ++ qs)) (n : Nat) : n ≤ ps.foldl depthAfter n ∧
    (ps.foldl depthAfter n = n → Balanced ps ∧ Balanced qs) := by
  generalize hks : ps ++ qs = ks at H
  induction H generalizing ps qs n with
  | nil =>
    obtain ⟨rfl, rfl⟩ := List.append_eq_nil_iff.1 hks
    exact ⟨Nat.le_refl n, fun _ => ⟨.nil, .nil⟩⟩
  | cons hk H ih =>
    rcases List.append_eq_cons_iff.1 hks with ⟨rfl, rfl⟩ | ⟨us, rfl, hus⟩
    · exact ⟨Nat.le_refl n, fun _ => ⟨.nil, .cons hk H⟩⟩
    · rw [List.foldl_cons, depthAfter_of_not_bracket hk]
      exact ⟨(ih n hus.symm).1, fun h => ((ih n hus.symm).2 h).imp_left (.cons hk)⟩
  | group h Hin H ih ih' =>
    obtain ⟨hopen, hclose⟩ := depthAfter_closer (n := n) h
    rcases List.append_eq_cons_iff.1 hks with ⟨rfl, rfl⟩ | ⟨us, rfl, hus⟩
    · exact ⟨Nat.le_refl n, fun _ => ⟨.nil, .group h Hin H⟩⟩
    rw [List.foldl_cons, hopen]
    rcases List.append_eq_append_iff.1 hus with ⟨vs, rfl, hvs⟩ | ⟨vs, rfl, -⟩
    · rw [List.foldl_append, Hin.foldl_depthAfter]
      rcases List.append_eq_cons_iff.1 hvs.symm with ⟨rfl, -⟩ | ⟨ws, rfl, hws⟩
      · exact ⟨Nat.le_succ n, fun he => absurd he (Nat.succ_ne_self n)⟩
      · rw [List.foldl_cons, hclose]
        exact ⟨(ih' n hws.symm).1, fun he => ((ih' n hws.symm).2 he).imp_left (.group h Hin)⟩
    · -- up to a place between the two brackets
      have hle := (ih (n + 1) rfl).1
      exact ⟨Nat.le_of_succ_le hle, fun he =>
        absurd (Nat.le_trans hle (Nat.le_of_eq he)) (Nat.not_succ_le_self n)⟩

end Balanced

/-! ### Damaged entries -/

/-- What can stand behind the name of a damaged entry: no `=`, or one without the start of a value
behind it. Brackets are balanced, and outside them there is no comma and no entry that has whitespace
in front of it. -/
structure Junk (run : List Token) : Prop where
  balanced : Balanced (kindsOf run)
  not_value : ∀ e us, significant run = e :: us → e.kind = .equals →
    ∀ t ∈ us.head?, t.kind ∉ valueStart
  outside : ∀ u p t v, run = u ++ (p ++ t :: v) → (∀ w ∈ p, w.isTrivia = true) →
    Balanced (kindsOf u) → t.kind ≠ .separator ∧
      ¬(t.kind = .fieldName ∧ (kindsOf v).head? = some .equals ∧ ∃ w ∈ p, w.kind = .whitespace)

/-- An operator with nothing but trivia around it. -/
theorem Junk.of_equals {run : List Token} {e : Token} (h : significant run = [e])
    (he : e.kind = .equals) : Junk run where
  balanced := by
    rw [kindsOf_eq_map_significant, h, List.map_singleton, he]
    exact .cons (by decide) .nil
  not_value a us hus _ t ht := by
    rw [h] at hus
    cases hus
    cases ht
  outside u p t v hrun _ _ := by
    cases htrivia : t.isTrivia with
    | true =>
      rw [Token.isTrivia] at htrivia
      constructor
      · intro hk
        rw [hk] at htrivia
        cases htrivia
      · rintro ⟨hk, -⟩
        rw [hk] at htrivia
        cases htrivia
    | false =>
      have hmem : t ∈ significant run := by
        rw [hrun, significant_append, significant_append, significant_cons htrivia]
        exact List.mem_append_right _ (List.mem_append_right _ (.head _))
      obtain rfl := List.mem_singleton.1 (h ▸ hmem)
      rw [he]
      constructor
      · intro hk
        cases hk
      · rintro ⟨hk, -⟩
        cases hk

namespace Sketch

variable {α β : Type}

/-- An error node over what was skipped, if anything was. -/
def buried : List α → List (Sketch α)
  | [] => []
  | a :: as => [.node .error ((a :: as).map .leaf)]

/-- The children of a damaged entry with `junk` behind its name. -/
def damaged (kind : α → TokenKind) (name : α) (junk : List α) : List (Sketch α) :=
  .node .fieldName [.leaf name] :: match junk with
    | [] => []
    | a :: as => if kind a = .equals then .leaf a :: buried as else buried (a :: as)

theorem leavesAll_buried (as : List α) : leavesAll (buried as) = as := by
  cases as with
  | nil => rfl
  | cons a as => rw [buried, leavesAll_node, leavesAll_map_leaf]

theorem leavesAll_damaged (kind : α → TokenKind) (name : α) (junk : List α) :
    leavesAll (damaged kind name junk) = name :: junk := by
  cases junk with
  | nil => rfl
  | cons a as =>
    by_cases h : kind a = .equals
    · simp only [damaged, h, if_true, leavesAll, leaves, leavesAll_buried, List.singleton_append]
    · simp only [damaged, h, if_false, leavesAll, leaves, leavesAll_buried, List.singleton_append]

theorem mapAll_map_leaf (f : α → β) (as : List α) :
    mapAll f (as.map .leaf) = (as.map f).map .leaf := by
  induction as with
  | nil => rfl
  | cons a as ih => rw [List.map_cons, mapAll, ih]; rfl

theorem mapAll_buried (f : α → β) (as : List α) : mapAll f (buried as) = buried (as.map f) := by
  cases as with
  | nil => rfl
  | cons a as => rw [buried, mapAll, Sketch.map, mapAll_map_leaf]; rfl

theorem mapAll_damaged (f : α → β) (kind : β → TokenKind) (name : α) (junk : List α) :
    mapAll f (damaged (kind ∘ f) name junk) = damaged kind (f name) (junk.map f) := by
  cases junk with
  | nil => rfl
  | cons a as =>
    by_cases h : kind (f a) = .equals
    · simp only [damaged, Function.comp, h, if_true, mapAll, Sketch.map, mapAll_buried, List.map_cons]
    · simp only [damaged, Function.comp, h, if_false, mapAll, Sketch.map, mapAll_buried,
        List.map_cons]

/-- A damaged entry has no value, so it is no entry that the grammar knows. -/
theorem symbols_damaged_notMem (kind : α → TokenKind) (name : α) (junk : List α) :
    symbols kind (damaged kind name junk) ∉ NodeKind.pair.whole.matches' := by
  rintro ⟨_, ⟨_, rfl, _, rfl, rfl⟩, _, rfl, h⟩
  have hburied : ∀ as : List α, symbols kind (buried as) ≠ [.node .value] := by
    rintro (_ | _)
    · nofun
    · exact fun he => nomatch (List.cons.inj he).1
  cases junk with
  | nil => cases h
  | cons a as =>
    by_cases ha : kind a = .equals
    · simp only [damaged, ha, if_true, symbols_cons] at h
      exact hburied as (List.cons.inj (List.cons.inj h).2).2.symm
    · simp only [damaged, ha, if_false] at h
      cases h

end Sketch

/-! ### Skipping -/

theorem State.atEof_of_reading {S : Script} {s : State} {t : Token} {ts : List Token}
    (H : Reading S s) (hs : significant s.rest = t :: ts) : s.atEof = false := by
  rw [← Bool.not_eq_true, H.wf.atEof_iff, kinds, kindsOf_eq_map_significant, hs]
  exact List.cons_ne_nil _ _

namespace Rule

variable {S : Script} {above : List NodeKind} {stop : State → Bool} {run rest : List Token}
  (hend : ∀ s, Reading S s → significant s.rest = rest → (s.atEof || stop s) = true)
  (hgo : ∀ us t ts s, run = us ++ t :: ts → Reading S s → significant s.rest = t :: (ts ++ rest) →
    (us.map Token.kind).foldl depthAfter 0 = 0 → stop s = false)
  (hdepth : (run.map Token.kind).foldl depthAfter 0 = 0)
include hend hgo hdepth

/-- Tokens are skipped up to a place outside brackets where the skipping stops, when it does not
stop outside brackets in front of that. -/
theorem Parses.skipLoop (budget n : Nat) (us ts : List Token) (hrun : run = us ++ ts)
    (hn : (us.map Token.kind).foldl depthAfter 0 = n) (hbudget : ts.length ≤ budget) :
    (Rule.skipLoop stop budget n).Parses S above (ts.map .leaf) rest fun _ => True := by
  induction budget generalizing us ts n with
  | zero =>
    cases List.eq_nil_of_length_eq_zero (Nat.le_zero.1 hbudget)
    exact .pure trivial
  | succ budget ih =>
    cases ts with
    | nil =>
      refine .look_bind (b := true) (fun s H hs => ?_) (.pure trivial)
      rw [List.append_nil] at hrun
      rw [← hn, ← hrun, hdepth, beq_self_eq_true, Bool.true_and]
      exact hend s H hs
    | cons t ts =>
      refine .look_bind (b := false) (fun s H hs => ?_) ?_
      · rw [leavesAll_map_leaf, List.cons_append] at hs
        rw [State.atEof_of_reading H hs, Bool.false_or, Bool.and_eq_false_iff]
        refine or_iff_not_imp_left.2 fun hzero => ?_
        rw [Bool.not_eq_false, beq_iff_eq] at hzero
        exact hgo us t ts s hrun H hs (hn.trans hzero)
      · refine .current_bind (k := t.kind) rfl ?_
        refine .bind [.leaf t] (ts.map .leaf) .bump fun _ _ => ?_
        refine ih _ _ _ (hrun.trans (List.append_cons _ _ _)) ?_ (Nat.le_of_succ_le_succ hbudget)
        rw [List.map_append, List.foldl_append, hn]
        rfl

/-- What is skipped goes into an error node. -/
theorem Yields.skipUntil : (Rule.skipUntil S.limits stop).Yields S (buried run) rest 0 := by
  cases run with
  | nil => exact .look_bind (b := true) (fun s H hs => hend s H hs) .pure
  | cons t ts =>
    refine .look_bind (b := false) (fun s H hs => ?_) ?_
    · rw [leavesAll_buried, List.cons_append] at hs
      rw [State.atEof_of_reading H hs, Bool.false_or]
      exact hgo [] t ts s rfl H hs rfl
    · refine (Yields.node (.of_parses (p := fun _ => True) (.of_length fun hlen => ?_))).bind_pure
      refine Parses.skipLoop hend hgo hdepth _ 0 [] (t :: ts) rfl rfl ?_
      rw [leavesAll_map_leaf, List.length_append] at hlen
      exact Nat.le_of_add_right_le hlen

end Rule

/-- A damaged entry in a text: `name`, with `run` behind it. -/
structure Script.Entry (S : Script) (name : Token) (run : List Token) : Prop where
  nodup : S.tokens.Nodup
  exists_tokens : ∃ front back, S.tokens = front ++ name :: (run ++ back)
  kind_name : name.kind = .fieldName
  junk : Junk run

/-- The current token ends a pair that went wrong. -/
def State.endsPair (s : State) : Bool :=
  [TokenKind.separator, .objectEnd].contains s.current || (s.afterWhitespace && s.atPairStart)

theorem State.endsPair_of_reading {S : Script} {s : State} {b : Token} {rest : List Token}
    (H : Reading S s) (hs : significant s.rest = b :: rest)
    (hb : b.kind ∈ [TokenKind.separator, .objectEnd]) : s.endsPair = true := by
  have hcurrent : s.current = b.kind := H.wf.current_of_kinds (congrArg (List.map Token.kind) hs)
  rw [endsPair, hcurrent, List.contains_iff_mem.2 hb, Bool.true_or]

namespace Script.Entry

variable {S : Script} {name t b : Token} {run us ts ws rest : List Token} {s : State}

/-- In front of a token of the entry, the trivia that waits is the last in the entry before it. -/
theorem exists_append_pending (E : S.Entry name run) (H : Reading S s)
    (hs : significant s.rest = t :: ts) (hrun : run = us ++ t :: ws) :
    ∃ vs, us = vs ++ s.pending := by
  obtain ⟨front, back, htokens⟩ := E.exists_tokens
  obtain ⟨zs, hzs⟩ := H.suffix
  have hkinds : s.kinds = t.kind :: ts.map Token.kind := by
    rw [State.kinds, kindsOf_eq_map_significant, hs, List.map_cons]
  obtain ⟨t', xs, hrest, -, ht, -⟩ := H.wf.exists_rest hkinds
  rw [hrest, significant_cons ht] at hs
  obtain ⟨rfl, -⟩ := List.cons.inj hs
  have hpending : zs ++ s.pending = front ++ name :: us := by
    have h : (zs ++ s.pending) ++ t' :: (xs ++ [s.eof]) =
        (front ++ name :: us) ++ t' :: (ws ++ back) := by
      rw [State.unattached, hrest] at hzs
      simp only [List.append_assoc, List.cons_append] at hzs ⊢
      rw [hzs, htokens, hrun, List.append_assoc, List.cons_append]
    have hnodup : ((zs ++ s.pending) ++ t' :: (xs ++ [s.eof])).Nodup := by
      rw [State.unattached, hrest] at hzs
      simp only [List.append_assoc, List.cons_append] at hzs ⊢
      exact hzs ▸ E.nodup
    have hnotMem := (List.nodup_cons.1 (List.nodup_middle.1 hnodup)).1
    rw [List.mem_append, not_or] at hnotMem
    exact ((List.append_cons_inj_of_notMem hnotMem.1 hnotMem.2).1 h).1
  rw [← List.singleton_append, ← List.append_assoc] at hpending
  rcases List.append_eq_append_iff.1 hpending with ⟨as, has, hus⟩ | ⟨as, -, hus⟩
  · rcases List.eq_nil_or_concat' as with rfl | ⟨as, a, rfl⟩
    · exact ⟨[], hus.symm⟩
    · -- the name would be trivia
      rw [← List.append_assoc] at has
      obtain ⟨-, ha⟩ := List.append_inj' has rfl
      cases ha
      have htrivia := H.wf.isTrivia_pending name (hus ▸ List.mem_append_left _ (by simp))
      rw [Token.isTrivia, E.kind_name] at htrivia
      cases htrivia
  · exact ⟨as, hus⟩

/-- Outside brackets, no token of the entry ends the skipping. -/
theorem endsPair_eq_false (E : S.Entry name run) (H : Reading S s) (hb : b.kind ≠ .equals)
    (hs : significant s.rest = t :: (ts ++ b :: rest)) (hrun : significant run = us ++ t :: ts)
    (hus : Balanced (us.map Token.kind)) : s.endsPair = false := by
  obtain ⟨as, vs, has, rfl, rfl⟩ := exists_of_significant hrun
  obtain ⟨zs, rfl⟩ := E.exists_append_pending H hs has
  rw [significant_append, significant_eq_nil H.wf.isTrivia_pending, List.append_nil] at hrun hus
  rw [List.append_assoc] at has
  rw [← kindsOf_eq_map_significant] at hus
  obtain ⟨hcomma, hpair⟩ := E.junk.outside zs s.pending t vs has H.wf.isTrivia_pending hus
  have hkinds : s.kinds = t.kind :: (kindsOf vs ++ (b :: rest).map Token.kind) := by
    rw [State.kinds, kindsOf_eq_map_significant, hs, List.map_cons, List.map_append]
    rfl
  have hcurrent := H.wf.current_of_kinds hkinds
  have hclose : t.kind ≠ .objectEnd := by
    intro ht
    have hsides := E.junk.balanced
    rw [kindsOf_eq_map_significant, hrun, List.map_append, List.map_cons, ht,
      ← kindsOf_eq_map_significant] at hsides
    have hright := ((hsides.depth_cases 0).2 (hus.foldl_depthAfter 0)).2
    generalize (significant vs).map Token.kind = ks at hright
    cases hright with
    | cons h => exact h (by decide)
    | group h => cases h
  rw [State.endsPair, Bool.or_eq_false_iff]
  constructor
  · rw [← Bool.not_eq_true, List.contains_iff_mem, hcurrent]
    simp only [List.mem_cons, hcomma, hclose, List.not_mem_nil, or_self, not_false_eq_true]
  · rw [← Bool.not_eq_true, Bool.and_eq_true, State.atPairStart, Bool.and_eq_true, beq_iff_eq,
      beq_iff_eq, hcurrent, State.nth_eq_getD, hkinds, State.afterWhitespace, List.any_eq_true]
    rintro ⟨⟨w, hw, hwhite⟩, hname, hnext⟩
    refine hpair ⟨hname, ?_, w, hw, beq_iff_eq.1 hwhite⟩
    cases hvs : kindsOf vs with
    | nil =>
      rw [hvs] at hnext
      exact absurd hnext hb
    | cons k ks =>
      rw [hvs] at hnext
      exact congrArg some hnext

end Script.Entry

namespace Rule

variable {S : Script} {name b : Token} {run us ts rest : List Token} {above : List NodeKind}
  (E : S.Entry name run) (hb : b.kind ∈ [TokenKind.separator, .objectEnd])
include E hb

/-- The skipping goes on up to the end of the entry. -/
theorem Yields.skipPair (us : List Token) (hrun : significant run = us ++ ts)
    (hus : Balanced (us.map Token.kind)) :
    (Rule.skipPair S.limits).Yields S (buried ts) (b :: rest) 0 := by
  have hbalanced := E.junk.balanced
  rw [kindsOf_eq_map_significant, hrun, List.map_append] at hbalanced
  have hts := (hbalanced.depth_cases 0).2 (hus.foldl_depthAfter 0)
  refine @skipUntil S State.endsPair ts (b :: rest) (fun s H hs => ?_)
    (fun vs t ws s hvs H hs hzero => ?_) (hts.2.foldl_depthAfter 0)
  · rw [State.endsPair_of_reading H hs hb, Bool.or_true]
  · have hfront := hts.2
    rw [hvs, List.map_append] at hfront
    have hne : b.kind ≠ .equals := fun h => absurd (h ▸ hb) (by decide)
    refine E.endsPair_eq_false H hne hs (hrun.trans (hvs ▸ (List.append_assoc _ _ _).symm)) ?_
    rw [List.map_append]
    exact hus.append ((hfront.depth_cases 0).2 hzero).1

omit E hb in
theorem Parses.eat_ne {k : TokenKind} (h : (ts.map Token.kind).headD .eof ≠ k) :
    (Rule.eat k).Parses S above [] ts (· = false) := by
  refine .isAt_bind rfl ?_
  rw [show ahead [] ts = ts.map Token.kind from rfl, beq_eq_false_iff_ne.2 h]
  exact .pure rfl

omit E hb in
/-- Where no value starts, nothing comes of the rule for one. -/
theorem Yields.noMatch_bind {α : Type} {value : Rule Outcome} {f : Outcome → Rule α}
    {xs : List (Sketch Token)} {n : Nat} (hvalue : ParsesValue S above value)
    (hstart : (ahead xs rest).headD .eof ∉ valueStart) (hf : (f .noMatch).Yields S xs rest n) :
    (value >>= f).Yields S xs rest n := by
  intro s H hs
  have hnone : value s = ⟨.noMatch, [], s⟩ := hvalue.noMatch s <| by
    rwa [H.wf.current_eq_headD, Parses.kinds_eq hs]
  rw [Ensures, bind_apply, hnone]
  exact hf s H hs

/-- After an error the rest of the entry is skipped. -/
theorem Yields.recover (us : List Token) {r : Rule Unit} (hr : r.Raises)
    (hrun : significant run = us ++ ts) (hus : Balanced (us.map Token.kind)) :
    (do r; let _ ← Rule.skipPair S.limits; return false : Rule Bool).Yields S (buried ts)
      (b :: rest) 1 :=
  bind [] (buried ts) (raises hr) fun _ => (skipPair E hb us hrun hus).bind_pure

/-- A damaged entry is one pair, and one error is raised. -/
theorem Yields.pair {value : Rule Outcome} (hvalue : ParsesValue S (.pair :: above) value) :
    (Rule.pair S.limits value).Yields S [.node .pair (damaged Token.kind name (significant run))]
      (b :: rest) 1 := by
  refine .look_bind (b := true) (fun s H hs => ?_) (.look_bind_any fun start => ?_)
  · rw [leavesAll_node, leavesAll_damaged] at hs
    have hcurrent := H.wf.current_of_kinds (congrArg (List.map Token.kind) hs)
    rw [hcurrent]
    exact beq_iff_eq.2 E.kind_name
  refine Yields.bind_pure (Yields.node ?_)
  have hname : ∀ rest, (Rule.node .fieldName Rule.bump).Yields S
      [.node .fieldName [.leaf name]] rest 0 := fun rest =>
    have hbump : Rule.bump.Parses S [] ([name].map .leaf) rest fun _ => True := .bump
    (of_parses hbump).node
  have hends : ∀ k ∈ [TokenKind.separator, .objectEnd], k ≠ .equals ∧ k ∉ valueStart := by decide
  cases hjunk : significant run with
  | nil =>
    refine Yields.bind (m := 0) (n := 1) [.node .fieldName [.leaf name]] [] (hname _) fun _ => ?_
    refine parses_bind [] [] (p := (· = false)) (.eat_ne ?_) fun ok hok => ?_
    · exact (hends _ hb).1
    · rw [hok]
      exact recover E hb [] (raises_raiseExpected _) hjunk .nil
  | cons e us =>
    by_cases he : e.kind = .equals
    · have hdamaged : damaged Token.kind name (e :: us) =
          [.node .fieldName [.leaf name]] ++ ([e].map .leaf ++ buried us) := by
        rw [damaged, if_pos he]
        rfl
      rw [hdamaged]
      refine Yields.bind (m := 0) (n := 1) _ _ (hname _) fun _ => ?_
      refine parses_bind [e] (buried us) (.eat he) fun ok hok => ?_
      rw [hok]
      refine noMatch_bind hvalue ?_ ?_
      · rw [ahead, leavesAll_buried]
        cases us with
        | nil => exact (hends _ hb).2
        | cons t ts => exact E.junk.not_value e (t :: ts) hjunk he t rfl
      · exact recover E hb [e] (raises_raiseMissingValue _) hjunk (.cons (by rw [he]; decide) .nil)
    · have hdamaged : damaged Token.kind name (e :: us) =
          [.node .fieldName [.leaf name]] ++ buried (e :: us) := by
        rw [damaged, if_neg he]
        rfl
      rw [hdamaged]
      refine Yields.bind (m := 0) (n := 1) _ _ (hname _) fun _ => ?_
      refine parses_bind [] _ (p := (· = false)) (.eat_ne ?_) fun ok hok => ?_
      · rwa [leavesAll_node, leavesAll_map_leaf]
      · rw [hok]
        exact recover E hb [] (raises_raiseExpected _) hjunk .nil

end Rule

/-- The text with one damaged entry can be parsed. -/
theorem Script.Entry.sound {S : Script} {name : Token} {run : List Token} (E : S.Entry name run)
    (hbad : S.bad = (· = .node .pair (damaged Token.kind name (significant run)))) : S.Sound where
  start cs hcs := by
    rw [hbad] at hcs
    cases hcs
    exact ⟨name, significant run, leavesAll_damaged _ _ _, E.kind_name⟩
  start_elements cs hcs := by
    rw [hbad] at hcs
    cases hcs
  balanced x hx := by
    rw [hbad] at hx
    rw [hx, leaves, leavesAll_damaged, List.map_cons, E.kind_name, ← kindsOf_eq_map_significant]
    exact .cons (by decide) E.junk.balanced
  parses hvalue hcs hb := by
    have hcs' := hcs
    rw [hbad] at hcs'
    cases hcs'
    intro s H hs
    refine (Rule.Yields.pair E hb hvalue s H hs).mono fun o es t _ ht => ?_
    obtain ⟨ht, hes, errors, hlen, hraised⟩ := ht
    obtain ⟨e, rfl⟩ := List.length_eq_one_iff.1 hlen
    rw [hes]
    exact ⟨trivial, ht, [e], .bad (by decide) hcs trivial .nil, hraised⟩
  parses_elements hcs := by
    rw [hbad] at hcs
    cases hcs

end Blueprint
