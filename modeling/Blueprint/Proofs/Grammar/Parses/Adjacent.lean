import Blueprint.Proofs.Grammar.Parses.Entry
import Blueprint.Proofs.Grammar.Parses.Covers

/-!
# Damaged entries next to another one

The skipping behind the name of a damaged entry also ends in front of an entry with whitespace before
it. There the loop over entries misses a comma, so that a second error is raised, about the name of
the next entry (`Renders.membersLoop_adjacent`). Whether whitespace waits in front of that name
depends on what was consumed last, so states are told apart by that (`Script.Behind`).
-/

namespace Blueprint

open NodeKind Form Token Sketch

/-- A damaged entry in a text with whitespace behind it, and an entry that starts with `next` after
that. -/
structure Script.Adjacent (S : Script) (name : Token) (run : List Token) (next : Token) : Prop where
  nodup : S.tokens.Nodup
  exists_tokens : ∃ front back, S.tokens = front ++ name :: (run ++ next :: back)
  kind_name : name.kind = .fieldName
  kind_next : next.kind = .fieldName
  junk : Junk run
  space : ∃ w ∈ run.rtakeWhile Token.isTrivia, w.kind = .whitespace

theorem Script.Adjacent.entry {S : Script} {name next : Token} {run : List Token}
    (A : S.Adjacent name run next) : S.Entry name run where
  nodup := A.nodup
  exists_tokens := A.exists_tokens.imp fun _ h => h.elim fun back h => ⟨next :: back, h⟩
  kind_name := A.kind_name
  junk := A.junk

/-- The token `t` was consumed last, and all trivia behind it waits. -/
structure Script.Behind (S : Script) (t : Token) (s : State) : Prop where
  exists_front : ∃ front, S.tokens = front ++ t :: s.unattached
  isTrivia_eq : t.isTrivia = false
  previous : s.previous = some t.span

variable {S : Script} {s : State} {name next t e b : Token} {run us ts rest : List Token}

/-- In front of the next entry the skipping ends. -/
theorem Script.Adjacent.endsPair (A : S.Adjacent name run next) (H : Reading S s)
    (hbehind : S.Behind t s) (hs : significant s.rest = next :: e :: rest)
    (he : e.kind = .equals) : s.endsPair = true := by
  have hkinds : s.kinds = .fieldName :: .equals :: rest.map Token.kind := by
    rw [State.kinds, kindsOf_eq_map_significant, hs, List.map_cons, List.map_cons, he, A.kind_next]
  obtain ⟨n, xs, hrest, -, hn, -⟩ := H.wf.exists_rest hkinds
  rw [hrest, significant_cons hn] at hs
  obtain ⟨rfl, -⟩ := List.cons.inj hs
  obtain ⟨zs, hzs⟩ := hbehind.exists_front
  obtain ⟨front, back, htokens⟩ := A.exists_tokens
  obtain ⟨w, hw, hwhite⟩ := A.space
  obtain ⟨us, blank, rfl, hblank, hw⟩ : ∃ us blank, run = us ++ blank ∧
      (∀ v ∈ blank, v.isTrivia = true) ∧ w ∈ blank :=
    ⟨_, _, List.rdropWhile_append_rtakeWhile.symm, fun _ => List.mem_rtakeWhile_imp, hw⟩
  -- what waits and the blank end in front of the same token
  have hsides : (zs ++ [t]) ++ s.pending = (front ++ name :: us) ++ blank := by
    have hleft : S.tokens = (zs ++ [t] ++ s.pending) ++ n :: (xs ++ [s.eof]) := by
      rw [hzs, State.unattached, hrest]
      simp only [List.append_assoc, List.cons_append, List.nil_append]
    have hright : S.tokens = (front ++ name :: us ++ blank) ++ n :: back := by
      rw [htokens]
      simp only [List.append_assoc, List.cons_append]
    have hnotMem := (List.nodup_cons.1 (List.nodup_middle.1 (hleft ▸ A.nodup))).1
    rw [List.mem_append, not_or] at hnotMem
    exact ((List.append_cons_inj_of_notMem hnotMem.1 hnotMem.2).1 (hleft.symm.trans hright)).1
  have hmem : w ∈ s.pending := by
    rcases List.append_eq_append_iff.1 hsides with ⟨as, -, has⟩ | ⟨as, has, rfl⟩
    · rw [has]
      exact List.mem_append_right _ hw
    · rcases List.eq_nil_or_concat' as with rfl | ⟨as, a, rfl⟩
      · exact hw
      · rw [← List.append_assoc] at has
        obtain ⟨-, ha⟩ := List.append_inj' has rfl
        cases ha
        have htrivia := hblank t (by simp)
        rw [hbehind.isTrivia_eq] at htrivia
        cases htrivia
  have hspace : s.afterWhitespace = true :=
    List.any_eq_true.2 ⟨w, hmem, beq_iff_eq.2 hwhite⟩
  have hstart : s.atPairStart = true := H.wf.at_two hkinds
  rw [State.endsPair, hspace, hstart, Bool.and_self, Bool.or_true]

namespace Rule

variable {α β : Type}

/-! ### Behind a token -/

theorem behind_bump (H : Reading S s) (hs : significant s.rest = t :: ts) :
    Rule.bump.Ensures s fun _ _ u => S.Behind t u := by
  have hkinds : s.kinds = t.kind :: ts.map Token.kind := by
    rw [State.kinds, kindsOf_eq_map_significant, hs, List.map_cons]
  obtain ⟨t', us, hrest, -, ht, -⟩ := H.wf.exists_rest hkinds
  rw [hrest, significant_cons ht] at hs
  obtain ⟨rfl, -⟩ := List.cons.inj hs
  obtain ⟨zs, hzs⟩ := H.suffix
  refine .of_runs .bump ?_
  rw [bump_cons hrest]
  refine ⟨⟨zs ++ s.pending, ?_⟩, ht, rfl⟩
  have hload : (s.passed t' us).unattached = us ++ [s.eof] :=
    congrArg (· ++ [s.eof]) (State.pending_append_rest_load s us)
  rw [← hzs, hload, State.unattached, hrest]
  simp only [List.append_assoc, List.cons_append]

theorem behind_eat {k : TokenKind} (H : Reading S s) (hs : significant s.rest = t :: ts)
    (hk : t.kind = k) : (Rule.eat k).Ensures s fun _ _ u => S.Behind t u := by
  have hcurrent : (s.current == k) = true := by
    rw [H.wf.current_of_kinds (congrArg (List.map Token.kind) hs), hk, beq_self_eq_true]
  refine .view_bind ?_
  rw [hcurrent, if_pos rfl]
  exact (behind_bump H hs).bind_pure

/-- What the rule does where `t` was consumed last: as `Renders`. -/
def RendersAfter (r : Rule α) (S : Script) (t : Token) (xs : List (Sketch Token)) (rest : List Token)
    (p : α → Prop) (q : List SyntaxError → Prop) : Prop :=
  ∀ s, Reading S s → S.Behind t s → significant s.rest = leavesAll xs ++ rest →
    r.Ensures s fun a es u => p a ∧ significant u.rest = rest ∧ Element.sketches es = xs ∧
      ∃ errors, q errors ∧ u.raised = errors ++ s.raised

namespace RendersAfter

variable {x : Sketch Token} {xs ys : List (Sketch Token)} {p : α → Prop} {p' : β → Prop}
  {q : List SyntaxError → Prop} {r : Rule α}

theorem of_renders (h : r.Renders S xs rest p q) : r.RendersAfter S t xs rest p q :=
  fun s H _ hs => h s H hs

/-- A rule that consumes `t` as its last token, and what is done behind it. -/
theorem bind {f : α → Rule β} (h : r.Renders S [x] (leavesAll ys ++ rest) p Clean)
    (hbehind : ∀ s, Reading S s → significant s.rest = leavesAll [x] ++ (leavesAll ys ++ rest) →
      r.Ensures s fun _ _ u => S.Behind t u)
    (hf : ∀ a, p a → (f a).RendersAfter S t ys rest p' q) :
    (r >>= f).Renders S ([x] ++ ys) rest p' q := by
  intro s H hs
  rw [leavesAll_append, List.append_assoc] at hs
  refine ((h s H hs).and (hbehind s H hs)).bind fun a es u hr hu => ?_
  obtain ⟨⟨ha, hu, hes, _, rfl, hraised⟩, hbehind⟩ := hu
  refine (hf a ha u (H.run hr) hbehind hu).mono fun b fs v _ hv => ?_
  obtain ⟨hb, hv, rfl, errors, hq, hraised'⟩ := hv
  exact ⟨hb, hv, by rw [Element.sketches_append, hes], errors, hq, by rw [hraised', hraised]; rfl⟩

/-- Where another token comes next nothing is consumed. -/
theorem eat_ne_bind {k : TokenKind} {f : Bool → Rule β} (hk : (ahead xs rest).headD .eof ≠ k)
    (hf : (f false).RendersAfter S t xs rest p' q) :
    (Rule.eat k >>= f).RendersAfter S t xs rest p' q := by
  intro s H hbehind hs
  have heat : Rule.eat k s = ⟨false, [], s⟩ := by
    have hcurrent : (s.current == k) = false := by
      rw [H.wf.current_eq_headD, Parses.kinds_eq hs, beq_eq_false_iff_ne]
      exact hk
    simp only [Rule.eat, isAt, bind_apply, view_apply, hcurrent]
    rfl
  rw [Ensures, bind_apply, heat]
  exact hf s H hbehind hs

/-- Where no value starts there is none. -/
theorem noMatch_bind {above : List NodeKind} {value : Rule Outcome} {f : Outcome → Rule β}
    (hvalue : ParsesValue S above value) (hstart : (ahead xs rest).headD .eof ∉ valueStart)
    (hf : (f .noMatch).RendersAfter S t xs rest p' q) :
    (value >>= f).RendersAfter S t xs rest p' q := by
  intro s H hbehind hs
  have hnone : value s = ⟨.noMatch, [], s⟩ := hvalue.noMatch s <| by
    rwa [H.wf.current_eq_headD, Parses.kinds_eq hs]
  rw [Ensures, bind_apply, hnone]
  exact hf s H hbehind hs

end RendersAfter

/-! ### Skipping -/

section

variable {stop : State → Bool}
  (hend : ∀ s t, Reading S s → S.Behind t s → significant s.rest = rest →
    (s.atEof || stop s) = true)
  (hgo : ∀ us t ts s, run = us ++ t :: ts → Reading S s → significant s.rest = t :: (ts ++ rest) →
    (us.map Token.kind).foldl depthAfter 0 = 0 → stop s = false)
  (hdepth : (run.map Token.kind).foldl depthAfter 0 = 0)
include hend hgo hdepth

/-- Tokens are skipped up to a place outside brackets where the skipping stops once a token was
consumed. -/
theorem skipLoop_ensures (budget n : Nat) (us ts : List Token) (hrun : run = us ++ ts)
    (hn : (us.map Token.kind).foldl depthAfter 0 = n) (hbudget : ts.length ≤ budget)
    (H : Reading S s) (hs : significant s.rest = ts ++ rest) (hbehind : ts = [] → ∃ t, S.Behind t s) :
    (Rule.skipLoop stop budget n).Ensures s fun _ es u => significant u.rest = rest ∧
      Element.sketches es = ts.map .leaf ∧ u.raised = s.raised := by
  induction budget generalizing us ts n s with
  | zero =>
    cases List.eq_nil_of_length_eq_zero (Nat.le_zero.1 hbudget)
    exact .pure ⟨hs, rfl, rfl⟩
  | succ budget ih =>
    refine .view_bind ?_
    cases ts with
    | nil =>
      obtain ⟨t, ht⟩ := hbehind rfl
      rw [List.append_nil] at hrun
      rw [← hn, ← hrun, hdepth, beq_self_eq_true, Bool.true_and, hend s t H ht hs, if_pos rfl]
      exact .pure ⟨hs, rfl, rfl⟩
    | cons t ts =>
      have hgoes : (s.atEof || (n == 0 && stop s)) = false := by
        rw [State.atEof_of_reading H hs, Bool.false_or, Bool.and_eq_false_iff]
        refine or_iff_not_imp_left.2 fun hzero => ?_
        rw [Bool.not_eq_false, beq_iff_eq] at hzero
        exact hgo us t ts s hrun H hs (hn.trans hzero)
      have hcurrent : s.current = t.kind :=
        H.wf.current_of_kinds (congrArg (List.map Token.kind) hs)
      rw [hgoes, if_neg Bool.false_ne_true]
      refine .view_bind ?_
      rw [hcurrent]
      refine ((Renders.bump s H hs).and (behind_bump H hs)).bind fun _ es u hr hu => ?_
      obtain ⟨⟨-, hu, hes, _, rfl, hraised⟩, hb⟩ := hu
      have hloop := ih (depthAfter n t.kind) (us ++ [t]) ts (hrun.trans (List.append_cons _ _ _))
        (by rw [List.map_append, List.foldl_append, hn]; rfl) (Nat.le_of_succ_le_succ hbudget)
        (H.run hr) hu fun _ => ⟨t, hb⟩
      refine hloop.mono fun _ fs v _ hv => ⟨hv.1, ?_, hv.2.2.trans hraised⟩
      rw [Element.sketches_append, hes, hv.2.1]
      rfl

/-- What is skipped behind a token goes into an error node. -/
theorem RendersAfter.skipUntil : (Rule.skipUntil S.limits stop).RendersAfter S t (buried run) rest
    (fun _ => True) Clean := by
  intro s H hbehind hs
  refine .view_bind ?_
  rw [leavesAll_buried] at hs
  cases run with
  | nil =>
    rw [hend s t H hbehind hs, if_pos rfl]
    exact .pure ⟨trivial, hs, rfl, [], rfl, rfl⟩
  | cons a as =>
    rw [State.atEof_of_reading H hs, Bool.false_or, hgo [] a as s rfl H hs rfl,
      if_neg Bool.false_ne_true]
    have hlen : (a :: as).length ≤ S.limits.maxIterations := by
      have hlen := H.ready.length_le
      rw [State.kinds, kindsOf_eq_map_significant, hs, List.length_map, List.length_append] at hlen
      exact Nat.le_of_add_right_le hlen
    refine .bind_pure (.node ?_)
    have hne : a :: as = [] → ∃ t, S.Behind t s.opened := fun h => absurd h (List.cons_ne_nil a as)
    refine (skipLoop_ensures hend hgo hdepth _ 0 [] (a :: as) rfl rfl hlen H.opened hs hne).mono
      fun _ es u _ hu => ⟨trivial, hu.1, ?_, [], rfl, hu.2.2⟩
    rw [Element.sketches_pending H.wf, Element.sketches_node, hu.2.1]
    rfl

end

/-! ### The entry and the next one -/

/-- The error is about the damaged entry: it starts where a token of it starts. -/
def BlamesEntry (name : Token) (run : List Token) (e : SyntaxError) : Prop :=
  ∃ t ∈ name :: run, e.span.start = t.span.start

/-- An error about the damaged entry, and after it one about the comma that is missed in front of the
next entry. -/
def MissesComma (name : Token) (run : List Token) (next : Token) (errors : List SyntaxError) :
    Prop :=
  ∃ e, BlamesEntry name run e ∧
    errors = [⟨.unexpectedToken [.separator, .objectEnd] .fieldName, next.span⟩, e]

section

variable {above : List NodeKind} {value : Rule Outcome} (A : S.Adjacent name run next)
  (he : e.kind = .equals)
include A he

/-- The skipping goes on up to the next entry. -/
theorem RendersAfter.skipPair (us : List Token) (hrun : significant run = us ++ ts)
    (hus : Balanced (us.map Token.kind)) :
    (Rule.skipPair S.limits).RendersAfter S t (buried ts) (next :: e :: rest) (fun _ => True)
      Clean := by
  have hbalanced := A.junk.balanced
  rw [kindsOf_eq_map_significant, hrun, List.map_append] at hbalanced
  have hts := (hbalanced.depth_cases 0).2 (hus.foldl_depthAfter 0)
  have hnext : next.kind ≠ .equals := by
    rw [A.kind_next]
    decide
  refine @skipUntil S t ts (next :: e :: rest) State.endsPair (fun s t H hbehind hs => ?_)
    (fun vs t ws s hvs H hs hzero => ?_) (hts.2.foldl_depthAfter 0)
  · rw [A.endsPair H hbehind hs he, Bool.or_true]
  · have hfront := hts.2
    rw [hvs, List.map_append] at hfront
    refine A.entry.endsPair_eq_false H hnext hs (hrun.trans (hvs ▸ (List.append_assoc _ _ _).symm)) ?_
    rw [List.map_append]
    exact hus.append ((hfront.depth_cases 0).2 hzero).1

/-- After an error the rest of the entry is skipped. -/
theorem RendersAfter.recover (us : List Token) {r : Rule Unit} (hrun : significant run = us ++ ts)
    (hus : Balanced (us.map Token.kind))
    (hr : ∀ s, Reading S s → S.Behind t s → significant s.rest = ts ++ next :: e :: rest →
      ∃ e, BlamesEntry name run e ∧ r s = ⟨(), [], { s with raised := e :: s.raised }⟩) :
    (do r; let _ ← Rule.skipPair S.limits; return false : Rule Bool).RendersAfter S t (buried ts)
      (next :: e :: rest) (fun _ => True)
      (fun errors => ∃ e, errors = [e] ∧ BlamesEntry name run e) := by
  intro s H hbehind hs
  rw [leavesAll_buried] at hs
  obtain ⟨err, herr, heq⟩ := hr s H hbehind hs
  have hraise : r.Ensures s fun _ es u => es = [] ∧ u = { s with raised := err :: s.raised } := by
    rw [Ensures, heq]
    exact ⟨.raise s err, rfl, rfl⟩
  refine hraise.bind fun _ es u hu hes => ?_
  obtain ⟨rfl, rfl⟩ := hes
  have hskip : (Rule.skipPair S.limits).RendersAfter S t (buried ts) (next :: e :: rest)
      (fun _ => True) Clean := skipPair A he us hrun hus
  have hs' : significant s.rest = leavesAll (buried ts) ++ next :: e :: rest := by
    rw [leavesAll_buried, hs]
  refine .bind_pure ((hskip _ (H.run hu) ⟨hbehind.1, hbehind.2, hbehind.3⟩ hs').mono
    fun _ fs v _ hv => ?_)
  obtain ⟨-, hv, hfs, _, rfl, hraised⟩ := hv
  exact ⟨trivial, hv, hfs, [err], ⟨err, rfl, herr⟩, hraised⟩

omit A he in
/-- What is expected is not what stands there. -/
theorem blames_raiseExpected {ks : List TokenKind} (hs : (significant s.rest).head? = some t)
    (H : Reading S s) (ht : t ∈ name :: run) : ∃ e, BlamesEntry name run e ∧
      Rule.raiseExpected ks s = ⟨(), [], { s with raised := e :: s.raised }⟩ :=
  ⟨_, ⟨t, ht, congrArg (·.span.start) (H.wf.token_of_significant hs)⟩, rfl⟩

omit he in
/-- Behind the operator the value is missing, or a token without meaning stands there. -/
theorem blames_raiseMissingValue (ht : t ∈ run) (hts : ∀ u ∈ ts, u ∈ name :: run)
    (H : Reading S s) (hbehind : S.Behind t s) (hs : significant s.rest = ts ++ next :: e :: rest) :
    ∃ e, BlamesEntry name run e ∧
      Rule.raiseMissingValue name.span s = ⟨(), [], { s with raised := e :: s.raised }⟩ := by
  cases hcurrent : s.current == TokenKind.error with
  | true =>
    have hraise : Rule.raiseMissingValue name.span s = Rule.raiseExpected valueStart s := by
      simp only [Rule.raiseMissingValue, isAt, bind_apply, view_apply, hcurrent]
      rfl
    rw [hraise]
    cases ts with
    | nil =>
      have hkind := H.wf.current_of_kinds (congrArg (List.map Token.kind) hs)
      rw [A.kind_next] at hkind
      rw [hkind] at hcurrent
      cases hcurrent
    | cons u us => exact blames_raiseExpected (hs ▸ rfl) H (hts u (.head _))
  | false =>
    refine ⟨⟨.missingValue, name.span.merge s.previousSpan⟩, ?_, ?_⟩
    · rw [State.previousSpan, hbehind.previous, Option.getD_some]
      rcases Nat.le_total name.span.start t.span.start with h | h
      · exact ⟨name, .head _, Nat.min_eq_left h⟩
      · exact ⟨t, .tail _ ht, Nat.min_eq_right h⟩
    · simp only [Rule.raiseMissingValue, isAt, bind_apply, view_apply, hcurrent]
      rfl

/-- A damaged entry is one pair in front of the next entry too, and the error is about it. -/
theorem Renders.adjacentPair (hne : significant run ≠ [])
    (hvalue : ParsesValue S (.pair :: above) value) :
    (Rule.pair S.limits value).Renders S [.node .pair (damaged Token.kind name (significant run))]
      (next :: e :: rest) (fun _ => True)
      (fun errors => ∃ e, errors = [e] ∧ BlamesEntry name run e) := by
  obtain ⟨a, us, hjunk⟩ := List.exists_cons_of_ne_nil hne
  have hmem : ∀ t ∈ a :: us, t ∈ run := fun t ht => List.mem_of_mem_filter (hjunk ▸ ht)
  refine isAt_bind (k := .fieldName) ?_ (look_bind (b := name.span) (fun s H hs => ?_) ?_)
  · rw [ahead, leavesAll_node, leavesAll_damaged]
    exact A.kind_name
  · rw [leavesAll_node, leavesAll_damaged] at hs
    exact congrArg Token.span (H.wf.token_of_significant (hs ▸ rfl))
  rw [hjunk]
  refine (nodeOutcome ?_).mono fun _ _ => trivial
  have hname : ∀ s ys, Reading S s →
      significant s.rest = leavesAll [.node .fieldName [.leaf name]] ++ ys →
      (Rule.node .fieldName Rule.bump).Ensures s fun _ _ u => S.Behind name u := fun s ys H hs =>
    .node (behind_bump H.opened hs)
  by_cases hequals : a.kind = .equals
  · have hdamaged : damaged Token.kind name (a :: us) =
        [.node .fieldName [.leaf name]] ++ ([.leaf a] ++ buried us) := by
      rw [damaged, if_pos hequals]
      rfl
    rw [hdamaged]
    refine RendersAfter.bind (t := name) bump.node (fun s H hs => hname s _ H hs)
      fun _ _ => .of_renders ?_
    refine RendersAfter.bind (t := a) (eat hequals) (fun s H hs => behind_eat H hs hequals)
      fun ok hok => ?_
    rw [hok]
    refine RendersAfter.noMatch_bind hvalue ?_ ?_
    · rw [ahead, leavesAll_buried]
      cases us with
      | nil =>
        rw [List.nil_append, List.map_cons, A.kind_next]
        have hstart : TokenKind.fieldName ∉ valueStart := by decide
        exact hstart
      | cons t ts => exact A.junk.not_value a (t :: ts) hjunk hequals t rfl
    · refine RendersAfter.recover A he [a] hjunk (.cons (by rw [hequals]; decide) .nil)
        fun s H hbehind hs => ?_
      exact blames_raiseMissingValue A (hmem a (.head _)) (fun u hu => .tail _ (hmem u (.tail _ hu)))
        H hbehind hs
  · have hdamaged : damaged Token.kind name (a :: us) =
        [.node .fieldName [.leaf name]] ++ buried (a :: us) := by
      rw [damaged, if_neg hequals]
      rfl
    rw [hdamaged]
    refine RendersAfter.bind (t := name) bump.node (fun s H hs => hname s _ H hs) fun _ _ => ?_
    refine RendersAfter.eat_ne_bind (by rwa [ahead, leavesAll_buried]) ?_
    refine RendersAfter.recover A he [] hjunk .nil fun s H hbehind hs => ?_
    exact blames_raiseExpected (hs ▸ rfl) H (.tail _ (hmem a (.head _)))

/-- Between entries nothing is skipped in front of one. -/
theorem Renders.skipMembers : (Rule.skipMembers S.limits).Renders S [] (next :: e :: rest)
    (fun _ => True) Clean := by
  refine view_bind (b := true) (fun s H hs => ?_) (pure trivial)
  have hkinds : s.kinds = .fieldName :: .equals :: rest.map Token.kind := by
    rw [hs, ahead, leavesAll, List.nil_append, List.map_cons, List.map_cons, A.kind_next, he]
  have hstart : s.atPairStart = true := H.at_two hkinds
  simp only [hstart, Bool.or_true]

/-- The loop over entries misses a comma in front of the next entry, and goes on with it. -/
theorem Renders.membersLoop_adjacent {cs right : List (Sketch Token)} (hS : S.Sound)
    (hne : significant run ≠ []) (hvalue : ParsesValue S (.pair :: above) value)
    (hlevels : levels above ≤ S.limits.maxDepth) (hcs : ∃ ts, leavesAll cs = next :: e :: ts)
    (H : Regular Token.kind S.bad (.node .pair cs :: right))
    (Hw : Within Token.kind S.limits.maxDepth S.bad above (.node .pair cs :: right) 0)
    (hword : symbols Token.kind (.node .pair cs :: right) ∈ (list (Form.node .pair)).matches')
    (hb : b.kind = .objectEnd) (budget : Nat) (found : Bool)
    (hbudget : (leavesAll (.node .pair (damaged Token.kind name (significant run)) ::
      .node .pair cs :: right) ++ b :: rest).length ≤ budget) :
    (Rule.membersLoop S.limits value budget found).Renders S
      (.node .pair (damaged Token.kind name (significant run)) :: .node .pair cs :: right) (b :: rest)
      (fun _ => True) (MissesComma name run next) := by
  obtain ⟨ts, hts⟩ := hcs
  have hnext : leavesAll (.node .pair cs :: right) ++ b :: rest =
      next :: e :: (ts ++ leavesAll right ++ b :: rest) := by
    rw [leavesAll, leaves, hts]
    rfl
  rw [leavesAll, leaves, leavesAll_damaged, List.append_assoc, hnext] at hbudget
  cases budget with
  | zero => cases hbudget
  | succ budget =>
    refine current_bind (k := .fieldName) ?_ ?_
    · rw [ahead, leavesAll, leaves, leavesAll_damaged]
      exact A.kind_name
    refine bind [.node .pair _] (.node .pair cs :: right) (hnext ▸ adjacentPair A he hne hvalue)
      (fun o _ => current_bind (k := .fieldName) ?_ (raiseExpected_bind (t := next) ?_ ?_ ?_)) ?_
    · rw [ahead, hnext]
      exact A.kind_next
    · rw [hnext]
      rfl
    · rw [A.kind_next]
      decide
    · refine clean_bind [] (.node .pair cs :: right) (hnext ▸ skipMembers A he) fun _ _ => ?_
      refine (of_parses Hw (Parses.membersLoop hS hvalue budget true H (mem_optional.2 (.inr hword))
        hlevels hb ?_)).bind_pure fun _ _ => trivial
      rw [hnext]
      simp only [List.cons_append, List.length_cons, List.length_append] at hbudget ⊢
      omega
    · rintro _ _ ⟨err, rfl, herr⟩ rfl
      refine ⟨err, herr, ?_⟩
      rw [A.kind_next]
      rfl

end

end Rule

/-! ### Entries with the damaged one among them -/

section

open Rule

variable {above : List NodeKind} {left right cs ds : List (Sketch Token)}
  (A : S.Adjacent name run next) (H : Regular Token.kind S.bad
    [.node .members (left ++ .node .pair cs :: .leaf t :: .node .pair ds :: right)])
  (Hw : Within Token.kind S.limits.maxDepth S.bad above
    [.node .members (left ++ .node .pair cs :: .leaf t :: .node .pair ds :: right)] 0)
include A H Hw

/-- A damaged entry stands in the place of an entry and the comma behind it. -/
theorem Covers.adjacent (hS : S.Sound) (hne : significant run ≠ [])
    (hnext : (leavesAll ds).head? = some next) :
    Covers S (MissesComma name run next) above (.node .members (left ++
      .node .pair (damaged Token.kind name (significant run)) :: .node .pair ds :: right)) := by
  obtain ⟨hword, Hc⟩ := H.of_node (by decide)
  obtain ⟨Hleft, -, Hright⟩ := Hw.of_node.2.1.sides
  cases Hright with | leaf Hright =>
  have hgood := Hright.good_of_node.resolve_left (· (by decide))
  obtain ⟨n, e, vs, rfl, -, he, -⟩ := Hc.right.tail.of_leaf.head.pair.resolve_left hgood
  cases hnext
  intro room b rest hroom hb
  have hvalue : ParsesValue S (.pair :: .members :: above) _ := parsesValue hS nofun hroom
  have hlevels : levels (.members :: above) ≤ S.limits.maxDepth := Nat.le.intro hroom
  refine Renders.members fun hlen => Renders.membersLoop_front hS hvalue hlevels rfl Hc.left Hleft
    hword (fun hwords budget found hbudget => ?_) _ _ hlen
  have hcomma : symbols Token.kind ([.node .pair cs, .leaf t] ++ .node .pair _ :: right) ∈
    (list (Form.node .pair)).matches' := hwords
  obtain ⟨_, _, _, hleft, -, hwords⟩ := (list_cases rfl hcomma).resolve_left (List.cons_ne_nil _ _)
  cases hleft
  exact Renders.membersLoop_adjacent A he hS hne hvalue hlevels ⟨_, rfl⟩ Hc.right.tail.of_leaf Hright
    hwords hb budget found hbudget

/-- Both start with a name. -/
theorem Covers.resembles_adjacent :
    Resembles (.node .members (left ++ .node .pair cs :: .leaf t :: .node .pair ds :: right))
      (.node .members (left ++ .node .pair (damaged Token.kind name (significant run)) ::
        .node .pair ds :: right)) := by
  have Hpair := Hw.of_node.2.1.sides.2.1
  have hgood := Hpair.good_of_node.resolve_left (· (by decide))
  obtain ⟨a, c, vs, rfl, ha, -⟩ := (H.of_node (by decide)).2.right.head.pair.resolve_left hgood
  refine ⟨List.mem_of_elem_eq_true rfl, rfl, nofun, ?_⟩
  simp only [leaves, leavesAll_append, leavesAll, leavesAll_damaged, List.head?_append]
  cases leavesAll left with
  | nil => exact ⟨a, rfl, name, rfl, ha.trans A.kind_name.symm⟩
  | cons b bs => exact ⟨b, rfl, b, rfl, rfl⟩

end

end Blueprint
