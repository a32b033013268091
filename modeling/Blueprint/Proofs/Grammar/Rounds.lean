import Blueprint.Proofs.Grammar.Mirrors
import Blueprint.Proofs.Tree.Uncut

/-!
# Skipping that may take more rounds

Skipping gives the same with more rounds, or it was cut short: it took as many tokens as there are
rounds, and it does not end where it would end by itself. For a chain of groups, a group that is cut
short leaves a bracket open, and nothing that is taken after it closes that bracket.
-/

namespace Blueprint

open Element Token

/-! ### The tokens in front of a state -/

namespace State.WF

variable {s : State}

theorem kindsOf_unattached (H : s.WF) : kindsOf s.unattached = s.kinds ++ [.eof] := by
  have hpending : significant s.pending = [] := significant_eq_nil H.isTrivia_pending
  rw [kindsOf_eq_map_significant, unattached, significant_append, significant_append, hpending,
    significant_cons H.isTrivia_eof, significant_nil, List.nil_append, List.map_append,
    List.map_singleton, H.kind_eof]
  rfl

theorem lookAhead_unattached (H : s.WF) (n : Nat) :
    lookAhead s.unattached n = s.kinds.getD n .eof := by
  rw [lookAhead_eq_getD, H.kindsOf_unattached, List.getD_eq_getElem?_getD,
    List.getD_eq_getElem?_getD, List.getElem?_append]
  split
  · rfl
  · next h =>
    rw [List.getElem?_eq_none (Nat.le_of_not_lt h)]
    cases n - s.kinds.length <;> rfl

theorem lookAhead_unattached_zero (H : s.WF) : lookAhead s.unattached 0 = s.current := by
  rw [H.lookAhead_unattached, H.current_eq_headD]
  cases s.kinds <;> rfl

theorem lookAhead_unattached_one (H : s.WF) : lookAhead s.unattached 1 = s.nth 1 := by
  rw [H.lookAhead_unattached, nth_eq_getD]

theorem takeWhile_unattached (H : s.WF) : s.unattached.takeWhile isTrivia = s.pending := by
  have hnext : (s.rest ++ [s.eof]).takeWhile isTrivia = [] := by
    have heof := H.isTrivia_eof
    have hcurrent := H.isTrivia_current
    cases hs : s.rest with
    | nil => rw [List.nil_append, List.takeWhile_cons, heof]; rfl
    | cons t ts =>
      rw [hs] at hcurrent
      rw [List.cons_append, List.takeWhile_cons, hcurrent t rfl]
      rfl
  rw [unattached, List.append_assoc, List.takeWhile_append_of_pos H.isTrivia_pending, hnext,
    List.append_nil]

end State.WF

namespace Rule

variable {α β : Type} {s : State}

/-- The kinds of the tokens that a rule takes. -/
def taken (r : Rule α) (s : State) : List TokenKind := kindsOf (leavesAll (r s).emitted)

theorem taken_bind (r : Rule α) (f : α → Rule β) (s : State) :
    taken (r >>= f) s = taken r s ++ taken (f (r s).value) (r s).state := by
  simp only [taken, bind_apply, leavesAll_append, kindsOf_eq_map_significant, significant_append,
    List.map_append]

theorem taken_bump (H : s.WF) (hs : s.atEof = false) : taken bump s = [s.current] := by
  cases hrest : s.rest with
  | nil => rw [H.atEof_iff.2 (H.kinds_eq_nil_iff.2 hrest)] at hs; cases hs
  | cons t ts =>
    have ht := H.isTrivia_current t (by rw [hrest]; rfl)
    have hpending : significant s.pending = [] := significant_eq_nil H.isTrivia_pending
    rw [taken, bump_cons hrest, leavesAll_append, leavesAll_map_token, kindsOf_eq_map_significant,
      significant_append, hpending, State.current, State.token, hrest]
    simp only [leavesAll, leaves, List.append_nil, List.nil_append, significant_cons ht]
    rfl

/-! ### Up to a place to go on from -/

section
variable {stop : State → Bool} {budget budget' n : Nat}

theorem skipLoop_of_stop (h : (s.atEof || (n == 0 && stop s)) = true) :
    skipLoop stop budget n s = ⟨(), [], s⟩ := by
  cases budget with
  | zero => rfl
  | succ budget => simp only [skipLoop, bind_apply, view_apply, h]; rfl

theorem skipLoop_of_not_stop (h : (s.atEof || (n == 0 && stop s)) = false) :
    skipLoop stop (budget + 1) n s =
      (bump >>= fun _ => skipLoop stop budget (depthAfter n s.current)) s := by
  simp only [skipLoop, bind_apply, view_apply, h]
  rfl

/-- With more rounds the same is skipped, or all rounds were taken and the skipping would go on. -/
theorem skipLoop_more (H : s.WF) (h : budget ≤ budget') :
    skipLoop stop budget' n s = skipLoop stop budget n s ∨
      (taken (skipLoop stop budget n) s).length = budget ∧
        ((skipLoop stop budget n s).state.atEof ||
          ((taken (skipLoop stop budget n) s).foldl depthAfter n == 0 &&
            stop (skipLoop stop budget n s).state)) = false := by
  induction budget generalizing s n budget' with
  | zero =>
    cases hstop : s.atEof || (n == 0 && stop s) with
    | true => exact .inl (by rw [skipLoop_of_stop hstop, skipLoop_of_stop hstop])
    | false => exact .inr ⟨rfl, hstop⟩
  | succ budget ih =>
    cases hstop : s.atEof || (n == 0 && stop s) with
    | true => exact .inl (by rw [skipLoop_of_stop hstop, skipLoop_of_stop hstop])
    | false =>
      obtain ⟨budget', rfl⟩ := Nat.exists_eq_add_of_lt h
      have ht := (Runs.bump s).wf H
      have hbump := taken_bump H (Bool.or_eq_false_iff.1 hstop).1
      refine (ih ht (n := depthAfter n s.current) (Nat.le_add_right budget budget')).imp
        (fun hsame => ?_) fun ⟨hlen, hgo⟩ => ?_
      · rw [skipLoop_of_not_stop hstop, skipLoop_of_not_stop hstop, bind_apply, bind_apply, hsame]
      · rw [taken, skipLoop_of_not_stop hstop, ← taken, taken_bind, hbump, List.singleton_append,
          List.length_cons, hlen, List.foldl_cons]
        exact ⟨rfl, hgo⟩

end

/-! ### Groups -/

/-- In an outer bracket everything is one level deeper. -/
theorem depthAfter_add {d n : Nat} {k : TokenKind}
    (h : n ≠ 0 ∨ k ∉ [TokenKind.objectEnd, .arrayEnd]) :
    depthAfter (d + n) k = d + depthAfter n k := by
  cases k with
  | objectStart | arrayStart => rfl
  | objectEnd | arrayEnd =>
    exact Nat.add_sub_assoc (Nat.pos_of_ne_zero (h.resolve_right fun h => h (by decide))) d
  | _ => rfl

theorem track_of_ne {d m : Nat} {k : TokenKind} (h : depthAfter d k ≠ 0) :
    track (d, m) k = (depthAfter d k, m + 1) := by
  rw [track, if_neg h]

theorem track_of_eq {d m : Nat} {k : TokenKind} (h : depthAfter d k = 0) :
    track (d, m) k = (0, 0) := by
  rw [track, h, if_pos rfl]

/-- Some bracket stays open behind the tokens, when the depth in front of them is `depth`. -/
def StaysOpen (depth : Nat) (kinds : List TokenKind) : Prop :=
  ∃ d, d ≠ 0 ∧ ∀ m, kinds.foldl track (depth, m) = (d, m + kinds.length)

namespace StaysOpen

variable {d n : Nat} {k : TokenKind} {ks ls : List TokenKind}

theorem nil (h : d ≠ 0) : StaysOpen d [] := ⟨d, h, fun _ => rfl⟩

theorem cons (h : depthAfter d k ≠ 0) (H : StaysOpen (depthAfter d k) ks) :
    StaysOpen d (k :: ks) := by
  obtain ⟨e, he, h'⟩ := H
  refine ⟨e, he, fun m => ?_⟩
  rw [List.foldl_cons, track_of_ne h, h', List.length_cons, Nat.add_right_comm, Nat.add_assoc]

theorem append (H : StaysOpen d ks) (H' : ∀ e, e ≠ 0 → StaysOpen e ls) : StaysOpen d (ks ++ ls) := by
  obtain ⟨e, he, h⟩ := H
  obtain ⟨f, hf, h'⟩ := H' e he
  refine ⟨f, hf, fun m => ?_⟩
  rw [List.foldl_append, h, h', List.length_append, Nat.add_assoc]

theorem unclosed_eq (H : StaysOpen 0 ks) : TokenKind.unclosed ks = ks.length := by
  obtain ⟨d, -, h⟩ := H
  rw [TokenKind.unclosed, h, Nat.zero_add]

end StaysOpen

section
variable {budget budget' n : Nat}

theorem bumpGroup_of_atEof (h : s.atEof = true) : bumpGroup budget n s = ⟨(), [], s⟩ := by
  cases budget with
  | zero => rfl
  | succ budget => simp only [bumpGroup, bind_apply, view_apply, h]; rfl

theorem bumpGroup_of_not_atEof (h : s.atEof = false) :
    bumpGroup (budget + 1) n s = (bump >>= fun _ => if depthAfter n s.current = 0 then pure ()
      else bumpGroup budget (depthAfter n s.current)) s := by
  simp only [bumpGroup, bind_apply, view_apply, h]
  rfl

/-- What a group takes leaves a bracket in front of it open. -/
theorem staysOpen_bumpGroup (H : s.WF) {d : Nat} (hd : d ≠ 0)
    (hn : n ≠ 0 ∨ s.current ∉ [TokenKind.objectEnd, .arrayEnd]) :
    StaysOpen (d + n) (taken (bumpGroup budget n) s) := by
  have hopen {n : Nat} : d + n ≠ 0 := fun h => hd (Nat.eq_zero_of_add_eq_zero h).1
  induction budget generalizing s n with
  | zero => exact .nil hopen
  | succ budget ih =>
    cases hs : s.atEof with
    | true =>
      rw [taken, bumpGroup_of_atEof hs]
      exact .nil hopen
    | false =>
      rw [taken, bumpGroup_of_not_atEof hs, ← taken, taken_bind, taken_bump H hs]
      have hdepth := depthAfter_add (d := d) hn
      refine .cons (hdepth ▸ hopen) ?_
      rw [hdepth]
      split
      · exact .nil hopen
      · next hne => exact ih ((Runs.bump s).wf H) (.inl hne)

/-- With more rounds the same group is taken, which is whole or ends with the file, or all rounds
were taken and the group is open. -/
theorem bumpGroup_more (H : s.WF) (h : budget ≤ budget') :
    (bumpGroup budget' n s = bumpGroup budget n s ∧
      ((∀ m, (taken (bumpGroup budget n) s).foldl track (n, m) = (0, 0)) ∨
        (bumpGroup budget n s).state.atEof = true)) ∨
      (bumpGroup budget n s).state.atEof = false ∧
        (taken (bumpGroup budget n) s).length = budget ∧
        (n ≠ 0 ∨ 0 < budget → StaysOpen n (taken (bumpGroup budget n) s)) := by
  induction budget generalizing s n budget' with
  | zero =>
    cases hs : s.atEof with
    | true => exact .inl ⟨by rw [bumpGroup_of_atEof hs, bumpGroup_of_atEof hs], .inr hs⟩
    | false =>
      exact .inr ⟨hs, rfl, fun hopen => .nil (hopen.resolve_right (Nat.lt_irrefl 0))⟩
  | succ budget ih =>
    cases hs : s.atEof with
    | true =>
      refine .inl ⟨by rw [bumpGroup_of_atEof hs, bumpGroup_of_atEof hs], .inr ?_⟩
      rw [bumpGroup_of_atEof hs]
      exact hs
    | false =>
      obtain ⟨budget', rfl⟩ := Nat.exists_eq_add_of_lt h
      have htaken : taken (bumpGroup (budget + 1) n) s = s.current :: taken
          (if depthAfter n s.current = 0 then pure () else
            bumpGroup budget (depthAfter n s.current)) (bump s).state := by
        rw [taken, bumpGroup_of_not_atEof hs, ← taken, taken_bind, taken_bump H hs]
        rfl
      rw [htaken, bumpGroup_of_not_atEof hs, bumpGroup_of_not_atEof hs, bind_apply, bind_apply]
      split
      · next hdepth =>
        exact .inl ⟨rfl, .inl fun m => by rw [List.foldl_cons, track_of_eq hdepth]; rfl⟩
      · next hdepth =>
        refine (ih ((Runs.bump s).wf H) (n := depthAfter n s.current)
          (Nat.le_add_right budget budget')).imp (fun ⟨hsame, hend⟩ => ⟨by rw [hsame], ?_⟩)
          fun ⟨hend, hlen, hopen⟩ => ⟨hend, ?_, fun _ => ?_⟩
        · exact hend.imp_left fun hfold m => by rw [List.foldl_cons, track_of_ne hdepth, hfold]
        · rw [List.length_cons, hlen]
        · exact .cons hdepth (hopen (.inl hdepth))

end

/-! ### Chains of groups -/

section
variable {limit : Nat} {atEnd : Bool} {ks ls : List TokenKind}

/-- Groups are not whole when one is open, at the end of the file when it is too long. -/
theorem wholeGroups_of_staysOpen (H : StaysOpen 0 ks) (h : atEnd = true → limit < ks.length) :
    TokenKind.wholeGroups limit atEnd ks = false := by
  have hlen : ks.length ≠ 0 := by
    intro hlen
    obtain ⟨d, hd, hfold⟩ := H
    rw [List.eq_nil_of_length_eq_zero hlen] at hfold
    exact hd (congrArg Prod.fst (hfold 0)).symm
  rw [TokenKind.wholeGroups, H.unclosed_eq, Bool.or_eq_false_iff, beq_eq_false_iff_ne.2 hlen,
    Bool.false_and, Bool.and_eq_false_iff, decide_eq_false_iff_not, Nat.not_le]
  exact ⟨or_iff_not_imp_left.2 fun he => h (Bool.not_eq_false _ ▸ he), rfl⟩

/-- A whole group and a `+` in front make no difference. -/
theorem wholeGroups_append (hks : ks.foldl track (0, 0) = (0, 0))
    (h : TokenKind.wholeGroups limit atEnd ls = false) :
    TokenKind.wholeGroups limit atEnd (ks ++ .plus :: ls) = false := by
  have hunclosed : TokenKind.unclosed (ks ++ .plus :: ls) = TokenKind.unclosed ls := by
    rw [TokenKind.unclosed, List.foldl_append, hks, List.foldl_cons]
    rfl
  rw [TokenKind.wholeGroups, hunclosed]
  rw [TokenKind.wholeGroups, Bool.or_eq_false_iff] at h
  rw [Bool.or_eq_false_iff, List.getLast?_append_of_ne_nil _ (List.cons_ne_nil _ _)]
  refine ⟨h.1, ?_⟩
  cases ls with
  | nil => rw [List.getLast?_singleton]; exact Bool.and_false _
  | cons k ls => rw [List.getLast?_cons_cons]; exact h.2

end

theorem current_of_atTail {s : State} (h : s.atTail = true) : s.current = .plus :=
  beq_iff_eq.1 (Bool.and_eq_true_iff.1 h).1

theorem not_atEof_of_atTail {s : State} (h : s.atTail = true) : s.atEof = false := by
  rw [State.atEof, current_of_atTail h]
  rfl

section
variable {limits limits' : Limits} {budget budget' : Nat}

theorem bumpChain_of_atEof (h : s.atEof = true) : bumpChain limits budget s = ⟨(), [], s⟩ := by
  cases budget with
  | zero => rfl
  | succ budget => simp only [bumpChain, bind_apply, view_apply, h]; rfl

/-- A chain ends with a group that no tail follows. -/
theorem bumpChain_last (h : s.atEof = false)
    (htail : (bumpGroup limits.maxIterations 0 s).state.atTail = false) :
    bumpChain limits (budget + 1) s = bumpGroup limits.maxIterations 0 s := by
  simp only [bumpChain, bind_apply, view_apply, h, htail, Bool.false_eq_true, if_false, pure_apply,
    List.nil_append, List.append_nil]

/-- In front of a tail a chain goes on behind the `+`. -/
theorem bumpChain_tail (h : s.atEof = false)
    (htail : (bumpGroup limits.maxIterations 0 s).state.atTail = true) :
    bumpChain limits (budget + 1) s =
      (bumpGroup limits.maxIterations 0 >>= fun _ => bump >>= fun _ => bumpChain limits budget) s := by
  simp only [bumpChain, bind_apply, view_apply, h, htail, Bool.false_eq_true, if_false, if_true,
    List.nil_append]

theorem taken_bumpChain_tail (H : s.WF) (h : s.atEof = false)
    (htail : (bumpGroup limits.maxIterations 0 s).state.atTail = true) :
    taken (bumpChain limits (budget + 1)) s = taken (bumpGroup limits.maxIterations 0) s ++
      .plus :: taken (bumpChain limits budget)
        (bump (bumpGroup limits.maxIterations 0 s).state).state := by
  rw [taken, bumpChain_tail h htail, ← taken, taken_bind, taken_bind,
    taken_bump ((Runs.inherited.bumpGroup _ _ s).wf H) (not_atEof_of_atTail htail),
    current_of_atTail htail]
  rfl

/-- What a chain takes leaves a bracket in front of it open. -/
theorem staysOpen_bumpChain (H : s.WF) {d : Nat} (hd : d ≠ 0) (hs : s.current ∈ valueStart) :
    StaysOpen d (taken (bumpChain limits budget) s) := by
  induction budget generalizing s d with
  | zero => exact .nil hd
  | succ budget ih =>
    cases hend : s.atEof with
    | true =>
      rw [taken, bumpChain_of_atEof hend]
      exact .nil hd
    | false =>
      have hopening : s.current ∉ [TokenKind.objectEnd, .arrayEnd] := by
        revert hs
        generalize s.current = k
        revert k
        decide
      have hgroup : StaysOpen d (taken (bumpGroup limits.maxIterations 0) s) :=
        staysOpen_bumpGroup (n := 0) H hd (.inr hopening)
      cases htail : (bumpGroup limits.maxIterations 0 s).state.atTail with
      | false =>
        rw [taken, bumpChain_last hend htail]
        exact hgroup
      | true =>
        have ht := (Runs.inherited.bumpGroup limits.maxIterations 0 s).wf H
        rw [taken_bumpChain_tail H hend htail]
        exact hgroup.append fun e he =>
          .cons he (ih ((Runs.bump _).wf ht) he (ht.current_bump_of_atTail htail))

/-- With more rounds the same groups are taken, or at least one token was taken for each round and
the groups are not whole. -/
theorem bumpChain_more (hle : limits.maxIterations ≤ limits'.maxIterations) (H : s.WF)
    (hbudget : budget ≤ limits.maxIterations) (h : budget ≤ budget') :
    bumpChain limits' budget' s = bumpChain limits budget s ∨
      budget ≤ (taken (bumpChain limits budget) s).length ∧
        TokenKind.wholeGroups limits.maxIterations (bumpChain limits budget s).state.atEof
          (taken (bumpChain limits budget) s) = false := by
  induction budget generalizing s budget' with
  | zero =>
    cases hs : s.atEof with
    | true => exact .inl (by rw [bumpChain_of_atEof hs, bumpChain_of_atEof hs])
    | false =>
      have hwhole (limit : Nat) : TokenKind.wholeGroups limit s.atEof [] = false := by rw [hs]; rfl
      exact .inr ⟨Nat.zero_le _, hwhole _⟩
  | succ budget ih =>
    cases hs : s.atEof with
    | true => exact .inl (by rw [bumpChain_of_atEof hs, bumpChain_of_atEof hs])
    | false =>
      obtain ⟨budget', rfl⟩ := Nat.exists_eq_add_of_lt h
      have ht := (Runs.inherited.bumpGroup limits.maxIterations 0 s).wf H
      have hgroup := bumpGroup_more (n := 0) H hle
      cases htail : (bumpGroup limits.maxIterations 0 s).state.atTail with
      | false =>
        rw [taken, bumpChain_last hs htail, ← taken]
        refine hgroup.imp (fun ⟨hsame, _⟩ => ?_) fun ⟨hend, hlen, hopen⟩ => ?_
        · rw [bumpChain_last hs (hsame ▸ htail), hsame]
        · have hopen := hopen (.inr (Nat.zero_lt_of_lt hbudget))
          refine ⟨hbudget.trans_eq hlen.symm, wholeGroups_of_staysOpen hopen fun he => ?_⟩
          rw [hend] at he
          cases he
      | true =>
        rw [taken_bumpChain_tail H hs htail, bumpChain_tail hs htail, bind_apply, bind_apply]
        rcases hgroup with ⟨hsame, hend⟩ | ⟨-, hlen, hopen⟩
        · rw [bumpChain_tail hs (hsame ▸ htail), bind_apply, bind_apply, hsame]
          refine (ih ((Runs.bump _).wf ht) (Nat.le_of_succ_le hbudget)
            (Nat.le_add_right budget budget')).imp (fun hrest => by rw [hrest])
            fun ⟨hlen, hrest⟩ => ⟨?_, wholeGroups_append ?_ hrest⟩
          · rw [List.length_append, List.length_cons]
            omega
          · refine hend.resolve_right (fun hend => ?_) 0
            rw [not_atEof_of_atTail htail] at hend
            cases hend
        · have hopen := hopen (.inr (Nat.zero_lt_of_lt hbudget))
          have hrest : ∀ e, e ≠ 0 → StaysOpen e (.plus :: taken (bumpChain limits budget)
              (bump (bumpGroup limits.maxIterations 0 s).state).state) := fun e he =>
            .cons he (staysOpen_bumpChain ((Runs.bump _).wf ht) he (ht.current_bump_of_atTail htail))
          have hall := hopen.append hrest
          refine .inr ⟨?_, wholeGroups_of_staysOpen hall fun _ => ?_⟩ <;>
            rw [List.length_append, List.length_cons, hlen] <;> omega

end

end Rule

end Blueprint
