import Blueprint.Proofs.Grammar.InOrder
import Blueprint.Proofs.Grammar.Layout
import Blueprint.Proofs.Grammar.Mirrors

/-!
# Loops settle

No loop of the grammar needs more rounds than there are tokens to come: in each round it consumes
one, or stops. So rules under limits that leave every loop so many rounds mirror each other
(`Rule.mirrors_items`), and how many more rounds there are does not matter (`parse_settles`).
-/

namespace Blueprint

open Element Token

/-- Both limits leave a loop `n` rounds, and set the same depth limit. -/
structure Limits.Enough (n : Nat) (limits limits' : Limits) : Prop where
  depth_eq : limits'.maxDepth = limits.maxDepth
  le : n ≤ limits.maxIterations
  le' : n ≤ limits'.maxIterations

namespace Rule

/-! ### Rules that consume a token -/

section
variable {α β : Type} {n : Nat} {s : State}

theorem Ensures.shorter {r : Rule α} {f : α → Rule β}
    (h : r.Ensures s fun _ _ t => t.kinds.length < n) (hf : ∀ a, (f a).Runs) :
    (r >>= f).Ensures s fun _ _ t => t.kinds.length < n :=
  h.bind fun a _ _ _ ht => .of_runs (hf a) (Nat.lt_of_le_of_lt (hf a _).kinds_suffix.length_le ht)

theorem bump_shorter (H : s.WF) (hs : s.current ≠ .eof) :
    bump.Ensures s fun _ _ t => t.kinds.length < s.kinds.length := by
  obtain ⟨ks, hks⟩ := H.exists_kinds rfl hs
  refine (Ensures.bump_takes H hks).mono fun _ _ t _ ht => ?_
  rw [ht.kinds_eq, List.length_cons]
  exact Nat.lt_succ_self _

theorem arrayElement_shorter (H : s.WF) : arrayElement.Ensures s fun o _ t =>
    o.isMatch = true → t.kinds.length < s.kinds.length := by
  refine .view_bind (.ite (fun hc => ?_) fun _ => .pure nofun)
  have hs : s.current ≠ .eof := by
    intro hs
    rw [hs] at hc
    cases hc
  refine .nodeOutcome ((bump_shorter H.opened hs).bind fun _ _ _ _ ht => .pure fun _ => ?_)
  exact ht

variable {limits : Limits} {value : Rule Outcome}

theorem pair_shorter (H : s.WF) (hvalue : value.Runs) (hs : s.current = .fieldName) :
    (pair limits value).Ensures s fun _ _ t => t.kinds.length < s.kinds.length := by
  obtain ⟨ks, hks⟩ := H.exists_kinds hs (by simp)
  have hne : s.current ≠ .eof := by simp [hs]
  refine .isAt_bind_of_kinds H hks (.view_bind (.nodeOutcome ?_))
  refine Ensures.shorter (.node (bump_shorter H.opened.opened hne)) fun _ => ?_
  have hskip : Rule.Runs (do let _ ← skipPair limits; return false : Rule Bool) :=
    (Runs.inherited.skipUntil _ _).bind fun _ => .pure
  refine (Runs.inherited.eat _).bind fun _ => Runs.inherited.ite ?_ ?_
  · exact Runs.inherited.assigned hvalue _ hskip
  · exact (Runs.inherited.raiseExpected _).bind fun _ => hskip

/-- Skipping that does not stop at once skips something. -/
theorem skipUntil_shorter {stop : State → Bool} (H : s.WF) (hbudget : 0 < limits.maxIterations)
    (hs : s.current ≠ .eof) (hstop : ∀ t : State, t.WF → t.kinds = s.kinds → stop t = false) :
    (skipUntil limits stop).Ensures s fun _ _ t => t.kinds.length < s.kinds.length := by
  obtain ⟨budget, hlimit⟩ := Nat.exists_eq_add_of_lt hbudget
  have hgo (t : State) (Ht : t.WF) (ht : t.kinds = s.kinds) : (t.atEof || stop t) = false := by
    rw [hstop t Ht ht, Bool.or_false, State.atEof, H.current_congr Ht ht]
    exact beq_eq_false_iff_ne.2 hs
  refine .view_bind ?_
  rw [hgo s H rfl]
  refine .bind_pure (.node ?_)
  rw [hlimit, Nat.zero_add]
  refine .view_bind ?_
  rw [beq_self_eq_true, Bool.true_and, hgo s.opened H.opened rfl]
  exact .view_bind (.shorter (bump_shorter H.opened hs) fun _ => Runs.inherited.skipLoop _ _ _)

theorem item_shorter (H : s.WF) (room : Nat) :
    (item limits room).Ensures s fun o _ t => t.kinds.length < s.kinds.length ∨
      o = .noMatch ∧ t = s ∧ s.current ∉ [TokenKind.blueprintTypeName, .variableName] := by
  have hvalue := Runs.inherited.value_innerAt limits room
  refine .view_bind ?_
  generalize hk : s.current = k
  cases k with
  | blueprintTypeName =>
    obtain ⟨ks, hks⟩ := H.exists_kinds hk (by simp)
    have hname : s.current ≠ .eof := by simp [hk]
    refine .isAt_bind_of_kinds H hks (.nodeOutcome (Ensures.mono ?_ fun _ _ _ _ ht => .inl ht))
    exact .shorter (.node (bump_shorter H.opened.opened hname)) fun _ =>
      Runs.inherited.body limits hvalue
  | variableName =>
    obtain ⟨ks, hks⟩ := H.exists_kinds hk (by simp)
    have hname : s.current ≠ .eof := by simp [hk]
    refine .isAt_bind_of_kinds H hks (.view_bind (.nodeOutcome ?_))
    refine Ensures.mono (.shorter (bump_shorter H.opened hname) fun _ => ?_)
      fun _ _ _ _ ht => .inl ht
    refine Runs.inherited.eatAssignment.bind fun _ => Runs.inherited.ite ?_ ?_
    · exact Runs.inherited.assigned hvalue _ .pure
    · exact Runs.inherited.bind_pure (Runs.inherited.raiseExpected _)
  | _ => exact .pure (.inr ⟨rfl, rfl, by simp⟩)

/-- Between the items of a file there is always something to take. -/
theorem itemOrSkip_shorter (H : s.WF) (hbudget : 0 < limits.maxIterations)
    (hs : s.current ≠ .eof) (room : Nat) :
    (itemOrSkip limits room).Ensures s fun _ _ t => t.kinds.length < s.kinds.length := by
  have hskip : Runs (do
      raiseExpected [.blueprintTypeName, .variableName]
      let _ ← skipItem limits
      return ()) :=
    (Runs.inherited.raiseExpected _).bind fun _ =>
      (Runs.inherited.skipUntil _ _).bind fun _ => .pure
  refine (item_shorter H room).bind fun o _ t hr ht => ?_
  rcases ht with ht | ⟨rfl, rfl, hcurrent⟩
  · refine .ite (fun _ => .pure ht) fun _ => ?_
    exact .of_runs hskip (Nat.lt_of_le_of_lt (hskip t).kinds_suffix.length_le ht)
  · refine (Ensures.raises_complains (raises_raiseExpected _)).bind fun _ _ u hu hkinds => ?_
    have Hu := hu.wf H
    refine .shorter (n := t.kinds.length) ?_ fun _ => .pure
    rw [← H.current_congr Hu hkinds.kinds_eq] at hs hcurrent
    rw [← hkinds.kinds_eq]
    refine skipUntil_shorter Hu hbudget hs fun v Hv hv => ?_
    rw [← Bool.not_eq_true, List.contains_iff_mem, Hu.current_congr Hv hv]
    exact hcurrent

end

section
variable {d : Shift} {n : Nat} {limits limits' : Limits}

/-- After a token is consumed, one less is to come. -/
theorem MirrorsAt.bump_bind {α : Type} [Numbered α] {f f' : Unit → Rule α} {s : State} (H : s.WF)
    (hlen : s.kinds.length < n + 1) (hs : s.current ≠ .eof) (hf : ∀ a, Mirrors d n (f a) (f' a)) :
    (Rule.bump >>= f).MirrorsAt d (Rule.bump >>= f') s :=
  .bind_shorter .bump H hlen (bump_shorter H hs) hf

/-! ### Skipping -/

theorem mirrors_skipLoop {stop stop' : State → Bool} (hstop : ∀ s, stop' (d.state s) = stop s)
    {budget budget' : Nat} (hb : n ≤ budget) (hb' : n ≤ budget') (nesting : Nat) :
    Mirrors d n (skipLoop stop budget nesting) (skipLoop stop' budget' nesting) := by
  refine Mirrors.loop (skipLoop stop) (skipLoop stop') ?_ hb hb' nesting
  intro m b b' _ ih nesting s H hlen
  refine .look_bind (by simp [hstop]) (.ite (fun _ => .pure rfl) fun hc => ?_)
  have hs : s.current ≠ .eof := fun hs => hc (by simp [State.atEof, hs])
  exact .look_bind (d.current_state _) (.bump_bind H hlen hs fun _ => ih _)

theorem mirrors_skipUntil (E : Limits.Enough n limits limits') {stop stop' : State → Bool}
    (hstop : ∀ s, stop' (d.state s) = stop s) :
    Mirrors d n (skipUntil limits stop) (skipUntil limits' stop') := by
  refine .look_bind (by simp [hstop]) fun _ => .ite (.pure rfl) ?_
  exact (mirrors_skipLoop hstop E.le E.le' 0).node.bind fun _ => .pure rfl

theorem mirrors_skipPair (E : Limits.Enough n limits limits') :
    Mirrors d n (skipPair limits) (skipPair limits') := mirrors_skipUntil E (by simp)

theorem mirrors_skipMembers (E : Limits.Enough n limits limits') :
    Mirrors d n (skipMembers limits) (skipMembers limits') := mirrors_skipUntil E (by simp)

theorem mirrors_skipElements (E : Limits.Enough n limits limits') :
    Mirrors d n (skipElements limits) (skipElements limits') := mirrors_skipUntil E (by simp)

theorem mirrors_skipItem (E : Limits.Enough n limits limits') :
    Mirrors d n (skipItem limits) (skipItem limits') := mirrors_skipUntil E (by simp)

theorem mirrors_bumpGroup {budget budget' : Nat} (hb : n ≤ budget) (hb' : n ≤ budget')
    (nesting : Nat) : Mirrors d n (bumpGroup budget nesting) (bumpGroup budget' nesting) := by
  refine Mirrors.loop bumpGroup bumpGroup ?_ hb hb' nesting
  intro m b b' _ ih nesting s H hlen
  refine .look_bind (d.atEof_state _) (.ite (fun _ => .pure rfl) fun hc => ?_)
  have hs : s.current ≠ .eof := fun hs => hc (by simp [State.atEof, hs])
  exact .look_bind (d.current_state _) (.bump_bind H hlen hs fun _ => .ite (.pure rfl) (ih _))

theorem mirrors_bumpChain (E : Limits.Enough n limits limits') {budget budget' : Nat}
    (hb : n ≤ budget) (hb' : n ≤ budget') :
    Mirrors d n (bumpChain limits budget) (bumpChain limits' budget') := by
  refine Mirrors.loop (fun budget (_ : Unit) => bumpChain limits budget)
    (fun budget _ => bumpChain limits' budget) ?_ hb hb' ()
  intro m b b' hm ih _ s H hlen
  refine .look_bind (d.atEof_state _) (.ite (fun _ => .pure rfl) fun _ => ?_)
  have hgroup := mirrors_bumpGroup (d := d) E.le E.le' 0
  refine (hgroup H (by omega)).bind (q := fun _ _ _ => True) ⟨(hgroup H (by omega)).run, trivial⟩
    fun _ _ t hr _ => ?_
  have Ht := hr.wf H
  have hlen' := hr.kinds_suffix.length_le
  refine .look_bind (d.atTail_state _) (.ite (fun hc => ?_) fun _ => .pure rfl)
  have hplus : t.current ≠ .eof := fun ht => by simp [State.atTail, ht] at hc
  exact .bump_bind Ht (by omega) hplus fun _ => ih ()

theorem mirrors_tooDeep (E : Limits.Enough n limits limits') :
    Mirrors d n (tooDeep limits) (tooDeep limits') := by
  have hgroup : Mirrors d n (skipGroup limits) (skipGroup limits') :=
    (mirrors_bumpGroup E.le E.le' 0).node.bind fun _ => .pure rfl
  rw [tooDeep, tooDeep, E.depth_eq]
  exact (Mirrors.raiseHere (by simp)).bind fun _ => hgroup.bind fun _ => .pure rfl

theorem mirrors_raiseMissingValue (start : Span) :
    Mirrors d n (raiseMissingValue start) (raiseMissingValue (d.span start)) := by
  refine .isAt_bind fun _ => .ite (.raiseExpected _) fun s _ _ => .view_bind (.raise ?_ (by simp))
  rw [Shift.previousSpan_state, Shift.merge_span]
  rfl

/-! ### Strings and arrays -/

theorem mirrors_stringTail {budget budget' : Nat} (hb : n ≤ budget) (hb' : n ≤ budget') :
    Mirrors d n (stringTail budget) (stringTail budget') := by
  refine Mirrors.loop (fun budget (_ : Unit) => stringTail budget)
    (fun budget _ => stringTail budget) ?_ hb hb' ()
  intro m b b' _ ih _ s H hlen
  refine .look_bind (by simp) (.ite (fun hc => ?_) fun _ => .pure rfl)
  have hs : s.current ≠ .eof := fun hs => by simp [hs] at hc
  exact .bump_bind H hlen hs fun _ => Mirrors.bump.bind fun _ => ih ()

theorem mirrors_stringExpr (E : Limits.Enough n limits limits') :
    Mirrors d n (stringExpr limits) (stringExpr limits') :=
  .isAt_bind fun _ => .ite (.nodeOutcome (Mirrors.bump.bind fun _ =>
    (mirrors_stringTail E.le E.le').bind fun _ => .pure rfl)) (.pure rfl)

theorem mirrors_arrayElement : Mirrors d n arrayElement arrayElement :=
  .isAtAny_bind fun _ => .ite (.nodeOutcome (Mirrors.bump.bind fun _ => .pure rfl)) (.pure rfl)

theorem mirrors_elementsLoop (E : Limits.Enough n limits limits') {budget budget' : Nat}
    (hb : n ≤ budget) (hb' : n ≤ budget') :
    Mirrors d n (elementsLoop limits budget) (elementsLoop limits' budget') := by
  have hskip (expected : List TokenKind) : Mirrors d n
      (do raiseExpected expected; let _ ← skipElements limits; return false : Rule Bool)
      (do raiseExpected expected; let _ ← skipElements limits'; return false) :=
    (Mirrors.raiseExpected _).bind fun _ => (mirrors_skipElements E).bind fun _ => .pure rfl
  refine Mirrors.loop (fun budget (_ : Unit) => elementsLoop limits budget)
    (fun budget _ => elementsLoop limits' budget) ?_ hb hb' ()
  intro m b b' hm ih _ s H hlen
  refine (mirrors_arrayElement H hlen).bind (arrayElement_shorter H) fun o _ t hr ht => ?_
  have Ht := hr.wf H
  have hle := hr.kinds_suffix.length_le
  rw [Outcome.isMatch_renumber]
  refine .ite (fun _ => hskip _ Ht (by omega)) fun ho => .look_bind (d.current_state _) ?_
  have hlen' : t.kinds.length < m := by
    have := ht (by simpa using ho)
    omega
  have hcomma : Mirrors d m
      (do
        bump
        if ← isAt .arrayEnd then
          return true
        else
          elementsLoop limits b : Rule Bool)
      (do
        bump
        if ← isAt .arrayEnd then
          return true
        else
          elementsLoop limits' b') :=
    Mirrors.bump.bind fun _ => .isAt_bind fun _ => .ite (.pure rfl) (ih ())
  generalize t.current = k
  cases k with
  | separator => exact hcomma Ht hlen'
  | arrayEnd => exact .pure rfl
  | eof => exact .pure rfl
  | _ => exact hskip _ Ht (by omega)

theorem mirrors_array (E : Limits.Enough n limits limits') (more : Bool) :
    Mirrors d n (array limits more) (array limits' more) := by
  have helements : Mirrors d n (elements limits) (elements limits') :=
    .nodeOutcome (mirrors_elementsLoop E E.le E.le')
  refine .isAt_bind fun _ => .ite (.pure rfl) (.ite (.nodeOutcome ?_) (mirrors_tooDeep E))
  exact Mirrors.bump.bind fun _ => helements.succeeds.unlessAt.bind fun _ =>
    (Mirrors.expect _).bind fun _ => .pure rfl

theorem mirrors_arrayTail (E : Limits.Enough n limits limits') (more : Bool) {budget budget' : Nat}
    (hb : n ≤ budget) (hb' : n ≤ budget') :
    Mirrors d n (arrayTail limits more budget) (arrayTail limits' more budget') := by
  refine Mirrors.loop (fun budget (_ : Unit) => arrayTail limits more budget)
    (fun budget _ => arrayTail limits' more budget) ?_ hb hb' ()
  intro m b b' hm ih _ s H hlen
  refine .look_bind (by simp) (.ite (fun hc => ?_) fun _ => .pure rfl)
  have hs : s.current ≠ .eof := fun hs => by simp [hs] at hc
  refine .bump_bind H hlen hs fun _ => ?_
  refine ((mirrors_array E more).mono (Nat.le_of_lt hm)).bind fun o => (ih ()).bind fun rest => ?_
  exact .pure (by rw [Outcome.isComplete_renumber]; rfl)

theorem mirrors_arrayExpr (E : Limits.Enough n limits limits') (more : Bool) :
    Mirrors d n (arrayExpr limits more) (arrayExpr limits' more) := by
  refine .isAt_bind fun _ => .ite (.nodeOutcome ?_) (.pure rfl)
  refine (mirrors_array E more).bind fun o => (mirrors_arrayTail E more E.le E.le').bind fun _ => ?_
  exact .pure (by rw [Outcome.isComplete_renumber]; rfl)

/-! ### Pairs -/

section
variable {value value' : Rule Outcome} (hvalue : Mirrors d n value value')
include hvalue

theorem mirrors_pair (E : Limits.Enough n limits limits') :
    Mirrors d n (pair limits value) (pair limits' value') := by
  have hskip : Mirrors d n (do let _ ← skipPair limits; return false : Rule Bool)
      (do let _ ← skipPair limits'; return false) := (mirrors_skipPair E).bind fun _ => .pure rfl
  refine .isAt_bind fun _ => .ite (.view_bind fun s => ?_) (.pure rfl)
  rw [Shift.token_state, Shift.span_token]
  refine .nodeOutcome (Mirrors.bump.node.bind fun _ => (Mirrors.eat _).bind fun _ => .ite ?_ ?_)
  · refine hvalue.bind fun o => ?_
    cases o with
    | complete => exact .pure rfl
    | incomplete => exact .pure rfl
    | noMatch => exact (mirrors_raiseMissingValue _).bind fun _ => hskip
  · exact (Mirrors.raiseExpected _).bind fun _ => hskip

theorem mirrors_membersLoop (E : Limits.Enough n limits limits') (hruns : value.Runs)
    {budget budget' : Nat} (hb : n ≤ budget) (hb' : n ≤ budget') (found : Bool) :
    Mirrors d n (membersLoop limits value budget found)
      (membersLoop limits' value' budget' found) := by
  refine Mirrors.loop (membersLoop limits value) (membersLoop limits' value') ?_ hb hb' found
  intro m b b' hm ih found s H hlen
  -- what is done about an error, in front of a state with fewer tokens to come
  have hskip (found : Bool) (expected : List TokenKind) : Mirrors d m
      (do
        raiseExpected expected
        let _ ← skipMembers limits
        let _ ← membersLoop limits value b found
        return false : Rule Bool)
      (do
        raiseExpected expected
        let _ ← skipMembers limits'
        let _ ← membersLoop limits' value' b' found
        return false) :=
    (Mirrors.raiseExpected _).bind fun _ => ((mirrors_skipMembers E).mono (Nat.le_of_lt hm)).bind
      fun _ => (ih found).bind fun _ => .pure rfl
  have hlost (hs : s.current ≠ .eof) (hend : s.current ≠ .objectEnd)
      (hname : s.current ≠ .fieldName) :
      MirrorsAt d
        (do
          raiseExpected [.fieldName]
          let _ ← skipMembers limits
          let _ ← membersLoop limits value b found
          return false : Rule Bool)
        (do
          raiseExpected [.fieldName]
          let _ ← skipMembers limits'
          let _ ← membersLoop limits' value' b' found
          return false) s := by
    refine (Mirrors.raiseExpected _ H hlen).bind (Ensures.raises_complains (raises_raiseExpected _))
      fun _ _ t hr ht => ?_
    have Ht := hr.wf H
    have hkinds := ht.kinds_eq
    rw [← H.current_congr Ht hkinds] at hs hend hname
    rw [← hkinds] at hlen
    refine .bind_shorter (mirrors_skipMembers E Ht (by omega)) Ht hlen
      (skipUntil_shorter Ht (by have := E.le; omega) hs fun u Hu hu => ?_) fun _ =>
        (ih found).bind fun _ => .pure rfl
    simp [State.atPairStart, Ht.current_congr Hu hu, hend, hname]
  refine .look_bind (d.current_state _) ?_
  generalize hk : s.current = k at hlost ⊢
  cases k with
  | objectEnd => exact .pure rfl
  | eof => exact .pure rfl
  | fieldName =>
    refine (mirrors_pair hvalue E H (by omega)).bind (pair_shorter H hruns hk) fun o _ t hr ht => ?_
    have Ht := hr.wf H
    have hlen' : t.kinds.length < m := by omega
    have hcomma : Mirrors d m
        (do
          bump
          let rest ← membersLoop limits value b true
          return o.isComplete && rest : Rule Bool)
        (do
          bump
          let rest ← membersLoop limits' value' b' true
          return (renumber d o).isComplete && rest) :=
      Mirrors.bump.bind fun _ => (ih true).bind fun _ =>
        .pure (by rw [Outcome.isComplete_renumber]; rfl)
    refine .look_bind (d.current_state _) ?_
    generalize t.current = k
    cases k with
    | separator => exact hcomma Ht hlen'
    | objectEnd => exact .pure (Outcome.isComplete_renumber d o)
    | eof => exact .pure (Outcome.isComplete_renumber d o)
    | _ => exact hskip true _ Ht hlen'
  | _ => exact hlost (by simp) (by simp) (by simp)

theorem mirrors_body (E : Limits.Enough n limits limits') (hruns : value.Runs) :
    Mirrors d n (body limits value) (body limits' value') := by
  have hmembers : Mirrors d n (members limits value) (members limits' value') :=
    .nodeOutcome (mirrors_membersLoop hvalue E hruns E.le E.le' false)
  refine (Mirrors.expect _).bind fun _ => .ite ?_ (.pure rfl)
  exact hmembers.succeeds.unlessAt.bind fun _ => (Mirrors.expect _).bind fun _ => .pure rfl

end

end

end Rule

/-- The rules of the next level mirror each other. -/
inductive Inner.Mirrors (d : Shift) (n : Nat) : Option Inner → Option Inner → Prop
  | none : Inner.Mirrors d n none none
  | some {rules rules' : Inner} : rules.value.Runs → Rule.Mirrors d n rules.value rules'.value →
    (∀ {m budget budget'}, m ≤ n → m ≤ budget → m ≤ budget' →
      Rule.Mirrors d m (rules.links budget) (rules'.links budget')) →
    Inner.Mirrors d n (some rules) (some rules')

namespace Rule

section
variable {d : Shift} {n : Nat} {limits limits' : Limits} {inner inner' : Option Inner}
  (hinner : Inner.Mirrors d n inner inner') (E : Limits.Enough n limits limits')
include hinner E

/-! ### Values -/

theorem mirrors_object : Mirrors d n (object limits inner) (object limits' inner') := by
  refine .isAt_bind fun _ => .ite ?_ (.pure rfl)
  cases hinner with
  | none => exact mirrors_tooDeep E
  | some hruns hvalue => exact .nodeOutcome (mirrors_body hvalue E hruns)

theorem mirrors_operand : Mirrors d n (operand limits inner) (operand limits' inner') := by
  have hmore : inner'.isSome = inner.isSome := by cases hinner <;> rfl
  refine .current_bind fun k => ?_
  cases k with
  | string => exact (mirrors_stringExpr E).succeeds
  | arrayStart =>
    rw [hmore]
    exact (mirrors_arrayExpr E _).succeeds
  | objectStart => exact (mirrors_object hinner E).succeeds
  | _ => exact Mirrors.bump.bind fun _ => .pure rfl

theorem mirrors_links {m budget budget' : Nat} (hm : m ≤ n) (hb : m ≤ budget) (hb' : m ≤ budget') :
    Mirrors d m (links limits inner budget) (links limits' inner' budget') := by
  intro s H hlen
  obtain ⟨m, rfl⟩ := Nat.exists_eq_add_of_lt (Nat.zero_lt_of_lt hlen)
  obtain ⟨budget, rfl⟩ := Nat.exists_eq_add_of_lt (Nat.lt_of_lt_of_le (Nat.zero_lt_of_lt hlen) hb)
  obtain ⟨budget', rfl⟩ := Nat.exists_eq_add_of_lt (Nat.lt_of_lt_of_le (Nat.zero_lt_of_lt hlen) hb')
  have hoperand : Mirrors d m (node .value (operand limits inner))
      (node .value (operand limits' inner')) := ((mirrors_operand hinner E).mono (by omega)).node
  refine MirrorsAt.bind (q := fun _ _ _ => True) .bump (.of_runs .bump trivial) fun _ _ t hr _ => ?_
  have Ht := hr.wf H
  have hle := hr.kinds_suffix.length_le
  refine .look_bind (d.atTail_state _) (.ite (fun hc => ?_) fun _ => .pure rfl)
  have hplus : t.current ≠ .eof := fun ht => by simp [State.atTail, ht] at hc
  refine .bump_bind Ht (n := m) (by omega) hplus fun _ => ?_
  refine .isAt_bind fun _ => .ite ?_ (hoperand.bind fun _ => .pure rfl)
  cases hinner with
  | none =>
    have hchain : Mirrors d n (skipChain limits) (skipChain limits') :=
      (mirrors_bumpChain E E.le E.le').node.bind fun _ => .pure rfl
    rw [E.depth_eq]
    exact (Mirrors.raiseHere (by simp)).bind fun _ => (hchain.mono (by omega)).bind fun _ =>
      .pure rfl
  | some _ _ hlinks =>
    exact (hlinks (by omega) (by omega) (by omega)).node.node.bind fun _ => .pure rfl

theorem mirrors_value : Mirrors d n (value limits inner) (value limits' inner') := by
  have href : Mirrors d n (variableRefExpr limits inner) (variableRefExpr limits' inner') :=
    .isAt_bind fun _ => .ite (.nodeOutcome (mirrors_links hinner E (Nat.le_refl n) E.le E.le'))
      (.pure rfl)
  refine .isAtAny_bind fun _ => .ite (.nodeOutcome ?_) (.pure rfl)
  exact .isAt_bind fun _ => .ite href.succeeds (mirrors_operand hinner E)

end

section
variable {d : Shift} {n : Nat} {limits limits' : Limits} (E : Limits.Enough n limits limits')
include E

theorem mirrors_innerAt (room : Nat) :
    Inner.Mirrors d n (innerAt limits room) (innerAt limits' room) := by
  induction room with
  | zero => exact .none
  | succ room ih =>
    exact .some (Runs.inherited.value_innerAt limits room) (mirrors_value ih E) (mirrors_links ih E)

/-! ### Files -/

theorem mirrors_blueprint (room : Nat) :
    Mirrors d n (blueprint limits room) (blueprint limits' room) := by
  have hinner := mirrors_innerAt (d := d) E room
  refine .isAt_bind fun _ => .ite (.nodeOutcome ?_) (.pure rfl)
  exact Mirrors.bump.node.bind fun _ =>
    mirrors_body (mirrors_value hinner E) E (Runs.inherited.value_innerAt limits room)

theorem mirrors_variableDef (room : Nat) :
    Mirrors d n (variableDef limits room) (variableDef limits' room) := by
  refine .isAt_bind fun _ => .ite (.view_bind fun s => ?_) (.pure rfl)
  rw [Shift.token_state, Shift.span_token]
  refine .nodeOutcome (Mirrors.bump.bind fun _ => Mirrors.eatAssignment.bind fun _ => .ite ?_ ?_)
  · refine (mirrors_value (mirrors_innerAt E room) E).bind fun o => ?_
    cases o with
    | complete => exact .pure rfl
    | incomplete => exact .pure rfl
    | noMatch => exact (mirrors_raiseMissingValue _).bind fun _ => .pure rfl
  · exact (Mirrors.raiseExpected _).bind fun _ => .pure rfl

theorem mirrors_itemOrSkip (room : Nat) :
    Mirrors d n (itemOrSkip limits room) (itemOrSkip limits' room) := by
  have hitem : Mirrors d n (item limits room) (item limits' room) := by
    refine .current_bind fun k => ?_
    cases k with
    | blueprintTypeName => exact mirrors_blueprint E room
    | variableName => exact mirrors_variableDef E room
    | _ => exact .pure rfl
  refine hitem.bind fun o => ?_
  rw [Outcome.isMatch_renumber]
  refine .ite (.pure rfl) ((Mirrors.raiseExpected _).bind fun _ => ?_)
  exact (mirrors_skipItem E).bind fun _ => .pure rfl

omit E in
/-- Where something was consumed nothing is forced. -/
theorem MirrorsAt.forceProgress {s : State} {before : Nat} (h : s.position ≠ before) :
    MirrorsAt d (forceProgress before) (forceProgress (before + d.index)) s := by
  have h' : (d.state s).position ≠ before + d.index := by
    rw [Shift.position_state]
    omega
  constructor
  · rw [forceProgress_of_ne h]
    exact .refl s
  · rw [forceProgress_of_ne h, forceProgress_of_ne h']
    rfl
  · rw [forceProgress_of_ne h]
    exact id

theorem mirrors_items (room : Nat) {budget budget' : Nat} (hb : n ≤ budget) (hb' : n ≤ budget') :
    Mirrors d n (items limits room budget) (items limits' room budget') := by
  refine Mirrors.loop (fun budget (_ : Unit) => items limits room budget)
    (fun budget _ => items limits' room budget) ?_ hb hb' ()
  intro m b b' hm ih _ s H hlen
  refine .look_bind (d.atEof_state _) (.ite (fun _ => .pure rfl) fun hc => .view_bind ?_)
  have hs : s.current ≠ .eof := fun hs => hc (by simp [State.atEof, hs])
  have hrounds := E.le
  rw [Shift.position_state]
  refine (mirrors_itemOrSkip E room H (by omega)).bind (itemOrSkip_shorter H (by omega) hs room)
    fun _ es t hr ht => ?_
  have hmoved : t.position ≠ s.position := mt (hr.position_eq_iff H).1 (Nat.ne_of_lt ht)
  refine MirrorsAt.bind (q := fun _ _ _ => True) (.forceProgress hmoved)
    (.of_runs (Runs.inherited.forceProgress _) trivial) fun _ fs u hr' _ => ?_
  have hle := hr'.kinds_suffix.length_le
  exact ih () (hr'.wf (hr.wf H)) (by omega)

omit E in
theorem mirrors_leftover : Mirrors d n leftover leftover := by
  have hall (ts : List Token) : Mirrors d n (bumpAll ts) (bumpAll (ts.map d.token)) := by
    induction ts with
    | nil => exact .pure rfl
    | cons t ts ih => exact Mirrors.bump.bind fun _ => ih
  refine .look_bind d.atEof_state fun _ => .ite (.pure rfl) (.view_bind fun s => ?_)
  exact (hall s.rest).node.bind fun _ => .pure rfl

/-- The children of a file mirror each other, but for the end of the file. -/
theorem mirrors_contents (room : Nat) {budget budget' : Nat} (hb : n ≤ budget) (hb' : n ≤ budget') :
    Mirrors d n (contents limits room budget) (contents limits' room budget') :=
  (mirrors_items E room hb hb').bind fun _ => mirrors_leftover

omit E in
/-- Without a shift, rules that mirror each other do the same. -/
theorem Mirrors.reply_eq {α : Type} [Numbered α] {r r' : Rule α} {s : State}
    (h : Mirrors .none n r r') (H : s.WF) (hlen : s.kinds.length < n)
    (hvalue : ∀ a : α, renumber Shift.none a = a) : r' s = r s := by
  have heq := (h H hlen).reply_eq
  rwa [Shift.state_none, Shift.state_none, Shift.elements_none, hvalue] at heq

end

end Rule

/-! ### Texts -/

open Rule

/-- From `s` on, no loop of the grammar needs more than `n` rounds: with any more of them it does
just the same. And an item of a file, or the way to the next one, takes at least one token. -/
structure State.Settles (limits : Limits) (n : Nat) (s : State) : Prop where
  items : ∀ room, ∀ budget ≥ n, items limits room budget s = items limits room n s
  members : ∀ room found, ∀ budget ≥ n,
    membersLoop limits (value limits (innerAt limits room)) budget found s =
      membersLoop limits (value limits (innerAt limits room)) n found s
  elements : ∀ budget ≥ n, elementsLoop limits budget s = elementsLoop limits n s
  strings : ∀ budget ≥ n, stringTail budget s = stringTail n s
  arrays : ∀ more, ∀ budget ≥ n, arrayTail limits more budget s = arrayTail limits more n s
  links : ∀ room, ∀ budget ≥ n,
    links limits (innerAt limits room) budget s = links limits (innerAt limits room) n s
  skipped : ∀ stop nesting, ∀ budget ≥ n,
    skipLoop stop budget nesting s = skipLoop stop n nesting s
  group : ∀ nesting, ∀ budget ≥ n, bumpGroup budget nesting s = bumpGroup n nesting s
  chain : ∀ budget ≥ n, bumpChain limits budget s = bumpChain limits n s
  progress : ∀ room, s.atEof = false →
    (itemOrSkip limits room s).state.position ≠ s.position

/-- Where fewer than `n` tokens are to come, loops settle after `n` rounds. -/
theorem State.WF.settles {limits : Limits} {n : Nat} {s : State} (H : s.WF)
    (hlen : s.kinds.length < n) (hn : n ≤ limits.maxIterations) : s.Settles limits n := by
  have E : limits.Enough n limits := ⟨rfl, hn, hn⟩
  have hle := Nat.le_refl n
  refine ⟨?_, ?_, ?_, ?_, ?_, ?_, ?_, ?_, ?_, ?_⟩
  · intro room budget hb
    exact (mirrors_items E room hle hb).reply_eq H hlen fun _ => rfl
  · intro room found budget hb
    have hvalue := mirrors_value (d := .none) (mirrors_innerAt E room) E
    have hruns := Runs.inherited.value_innerAt limits room
    exact (mirrors_membersLoop hvalue E hruns hle hb found).reply_eq H hlen fun _ => rfl
  · intro budget hb
    exact (mirrors_elementsLoop E hle hb).reply_eq H hlen fun _ => rfl
  · intro budget hb
    exact (mirrors_stringTail hle hb).reply_eq H hlen fun _ => rfl
  · intro more budget hb
    exact (mirrors_arrayTail E more hle hb).reply_eq H hlen fun _ => rfl
  · intro room budget hb
    exact (mirrors_links (mirrors_innerAt E room) E hle hle hb).reply_eq H hlen fun _ => rfl
  · intro stop nesting budget hb
    have hstop (t : State) : stop (Shift.none.state t) = stop t := by rw [Shift.state_none]
    exact (mirrors_skipLoop hstop hle hb nesting).reply_eq H hlen fun _ => rfl
  · intro nesting budget hb
    exact (mirrors_bumpGroup hle hb nesting).reply_eq H hlen fun _ => rfl
  · intro budget hb
    exact (mirrors_bumpChain E hle hb).reply_eq H hlen fun _ => rfl
  · intro room hend
    have hs : s.current ≠ .eof := beq_eq_false_iff_ne.1 hend
    obtain ⟨hr, ht⟩ := @itemOrSkip_shorter s limits H (by omega) hs room
    exact mt (hr.position_eq_iff H).1 (Nat.ne_of_lt ht)

theorem State.length_kinds_start_lt (source : String) :
    (State.start source).kinds.length < (tokenize source).length := by
  rw [State.kinds_start, tokenize, TokenStream.toList, List.length_append]
  exact Nat.lt_succ_of_le Token.length_kindsOf_le

/-- When there is a round for each token, the number of rounds does not matter: the tree and the
errors are the same, none of them is about a loop, and wherever the grammar comes to in the text no
loop has need of more rounds than that. -/
theorem parse_settles (source : String) (limits limits' : Limits)
    (hdepth : limits'.maxDepth = limits.maxDepth)
    (hlen : (tokenize source).length ≤ limits.maxIterations)
    (hlen' : (tokenize source).length ≤ limits'.maxIterations) :
    parse source limits' = parse source limits ∧
      (∀ e ∈ (parse source limits).errors, ∀ rule, e.problem ≠ .parserStuck rule) ∧
      ∀ s es, Run (State.start source) es s → s.Settles limits (tokenize source).length := by
  have E : limits.Enough (tokenize source).length limits' := ⟨hdepth, hlen, hlen'⟩
  have H := State.wf_start source
  have hstart := State.length_kinds_start_lt source
  have hcontents := mirrors_contents (d := .none) E limits.maxDepth E.le E.le'
  refine ⟨?_, ?_, ?_⟩
  · have heq := hcontents.reply_eq H hstart fun _ => rfl
    have hbody : fileBody limits' limits'.maxDepth (State.start source) =
        fileBody limits limits.maxDepth (State.start source) := by
      rw [hdepth, fileBody_apply, fileBody_apply, heq]
    have hparse (limits : Limits) : parse source limits =
        (fun r : Reply Unit => (⟨⟨source, tokenize source, ⟨0, .file,
          r.state.nodeSpan r.emitted, r.emitted⟩⟩, r.state.errors⟩ : Parse))
            (fileBody limits limits.maxDepth (State.start source)) := rfl
    rw [hparse, hparse, hbody]
  · intro e he
    have hunstuck : (fileBody limits limits.maxDepth (State.start source)).state.Unstuck := by
      rw [fileBody_apply]
      exact (hcontents H hstart).unstuck fun _ h => absurd h List.not_mem_nil
    exact hunstuck e ((SyntaxError.recorded_sublist _).mem (List.mem_reverse.1 he))
  · intro s es hr
    exact (hr.wf H).settles (Nat.lt_of_le_of_lt hr.kinds_suffix.length_le hstart) hlen

/-- Too long a chain of references, and a module and an array that go wrong. -/
theorem parse_settles_broken :
    (tokenize "m \x7b a: v + w + u b: [1 + \x7d ] x").length ≤ 31 ∧
      parse "m \x7b a: v + w + u b: [1 + \x7d ] x" ⟨1, 40⟩ =
        parse "m \x7b a: v + w + u b: [1 + \x7d ] x" ⟨1, 31⟩ ∧
      (∀ e ∈ (parse "m \x7b a: v + w + u b: [1 + \x7d ] x" ⟨1, 31⟩).errors, ∀ rule,
        e.problem ≠ .parserStuck rule) ∧
      ∀ s es, Run (State.start "m \x7b a: v + w + u b: [1 + \x7d ] x") es s →
        s.Settles ⟨1, 31⟩ (tokenize "m \x7b a: v + w + u b: [1 + \x7d ] x").length :=
  have h : (tokenize "m \x7b a: v + w + u b: [1 + \x7d ] x").length ≤ 31 := by decide +kernel
  ⟨h, parse_settles "m \x7b a: v + w + u b: [1 + \x7d ] x" ⟨1, 31⟩ ⟨1, 40⟩ rfl h
    (Nat.le_trans h (by decide))⟩

end Blueprint
