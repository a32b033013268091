import Blueprint.Session
import Blueprint.Proofs.Grammar.Fits.File
import Blueprint.Proofs.Grammar.Quiet

/-!
# What an outcome tells

A rule that applies and raises nothing gives a complete node, and one that gives a complete node
raised nothing on the way (`produce_tells`). Left open is the error that a string concatenation has
too many parts, of which nothing is said here. A rule that does not apply raises nothing either, so
its outcome tells apart from both.
-/

namespace Blueprint

open Element

namespace State

/-- From `s` to `t` nothing was raised if all went well, but for errors about the rounds of a string
concatenation, and something if not. -/
def Told (s : State) (ok : Bool) (t : State) : Prop :=
  ∃ raised, t.raised = raised ++ s.raised ∧
    (ok = true → ∀ e ∈ raised, e.problem = .parserStuck "string_expr") ∧
    (ok = false → raised ≠ [])

namespace Told

variable {s t u : State} {es : List Element} {ok ok' : Bool}

theorem of_eq (h : t.raised = s.raised) : s.Told true t := ⟨[], h, nofun, nofun⟩

theorem trans (H : s.Told ok t) (H' : t.Told ok' u) : s.Told (ok && ok') u := by
  obtain ⟨raised, hraised, hwell, hill⟩ := H
  obtain ⟨raised', hraised', hwell', hill'⟩ := H'
  refine ⟨raised' ++ raised, by rw [hraised', hraised, List.append_assoc], ?_, ?_⟩
  · intro hok e he
    rw [Bool.and_eq_true] at hok
    rcases List.mem_append.1 he with he | he
    · exact hwell' hok.2 e he
    · exact hwell hok.1 e he
  · intro hok hnil
    obtain ⟨hnil', hnil⟩ := List.append_eq_nil_iff.1 hnil
    rcases (Bool.and_eq_false_iff).1 hok with hok | hok
    · exact hill hok hnil
    · exact hill' hok hnil'

theorem well (H : s.Told true t) (H' : t.Told ok u) : s.Told ok u := H.trans H'

/-- What was raised stays raised. -/
theorem ill (H : s.Told false t) (hr : Run t es u) : s.Told false u := by
  obtain ⟨raised, hraised, -, hill⟩ := H
  obtain ⟨raised', hraised'⟩ := hr.raised_suffix
  refine ⟨raised' ++ raised, ?_, nofun, fun _ hnil => hill rfl (List.append_eq_nil_iff.1 hnil).2⟩
  rw [← hraised', hraised, List.append_assoc]

end Told

end State

namespace Rule

variable {α β : Type} {s : State}

/-- What the rule gives tells whether something was raised, wherever it runs. -/
def Tells (r : Rule Bool) : Prop := ∀ ⦃s : State⦄, s.WF → r.Ensures s fun ok _ t => s.Told ok t

/-- The rule applies at `s`, and the outcome tells whether something was raised. -/
def Answers (r : Rule Outcome) (s : State) : Prop :=
  r.Ensures s fun o _ t => o.isMatch = true ∧ s.Told o.isComplete t

/-- Wherever the rule runs, it does nothing or it applies and answers. -/
def TellsOutcome (r : Rule Outcome) : Prop :=
  ∀ ⦃s : State⦄, s.WF → r.Ensures s fun o es t =>
    o = .noMatch ∧ es = [] ∧ t = s ∨ o.isMatch = true ∧ s.Told o.isComplete t

namespace Ensures

variable {r : Rule α} {f : α → Rule Bool}

theorem quiet (hruns : r.Runs) (hquiet : r.Quiet) : r.Ensures s fun _ _ t => s.Told true t :=
  .of_runs hruns (.of_eq (hquiet s))

/-- After something that went well, the rest tells. -/
theorem well_bind (h : r.Ensures s fun _ _ t => s.Told true t)
    (hf : ∀ a es t, Run s es t → (f a).Ensures t fun ok _ u => t.Told ok u) :
    (r >>= f).Ensures s fun ok _ u => s.Told ok u :=
  h.bind fun a es t hr ht => (hf a es t hr).mono fun _ _ _ _ hu => ht.well hu

theorem raises_ill {r : Rule Unit} (hr : r.Raises) : r.Ensures s fun _ _ t => s.Told false t :=
  .of_raises hr fun e => ⟨[e], rfl, nofun, fun _ => List.cons_ne_nil _ _⟩

/-- After an error nothing goes well any more. -/
theorem ill_bind {r : Rule Unit} {f : Unit → Rule Bool} (hr : r.Raises) (hruns : (f ()).Runs)
    (hf : ∀ t, (f () t).value = false) : (r >>= f).Ensures s fun ok _ u => s.Told ok u :=
  (raises_ill hr).bind fun _ _ t _ ht => .of_runs hruns ((hf t).symm ▸ ht.ill (hruns t))

/-- Two parts of a node, which went well if both did. -/
theorem told_and {r r' : Rule Bool} (h : r.Ensures s fun ok _ t => s.Told ok t)
    (h' : ∀ es t, Run s es t → r'.Ensures t fun ok _ u => t.Told ok u) :
    (do
      let ok ← r
      let ok' ← r'
      return ok && ok').Ensures s fun ok _ u => s.Told ok u :=
  h.bind fun _ es t hr ht => .bind_pure ((h' es t hr).mono fun _ _ _ _ hu => ht.trans hu)

theorem answers {kind : NodeKind} {body : Rule Bool}
    (h : body.Ensures s.opened fun ok _ t => s.opened.Told ok t) :
    (Rule.nodeOutcome kind body).Answers s :=
  nodeOutcome (h.mono fun ok _ _ _ ht => by cases ok <;> exact ⟨rfl, ht⟩)

end Ensures

theorem Answers.succeeds {r : Rule Outcome} (h : r.Answers s) :
    r.succeeds.Ensures s fun ok _ t => s.Told ok t :=
  .succeeds (h.mono fun _ _ _ _ ht => ht.2)

/-- A rule that applies where the current token has a given kind, and there alone. -/
theorem tellsOutcome_isAt {kind : TokenKind} {r : Rule Outcome}
    (h : ∀ ⦃s : State⦄, s.WF → s.current = kind → Answers (do
      if ← isAt kind then
        r
      else
        return .noMatch) s) :
    TellsOutcome (do
      if ← isAt kind then
        r
      else
        return .noMatch) := by
  intro s H
  by_cases hs : s.current = kind
  · exact (h H hs).mono fun _ _ _ _ ht => .inr ht
  · exact .isAt_bind (fun hc => absurd hc hs) fun _ => .pure (.inl ⟨rfl, rfl, rfl⟩)

variable (limits : Limits)

theorem tells_expect (kind : TokenKind) : (expect kind).Tells := by
  intro s _
  apply Ensures.well_bind (.quiet (Runs.inherited.eat kind) (Quiet.kept.eat kind))
  intro ok _ t _
  apply Ensures.ite
  · exact fun _ => .pure (.of_eq rfl)
  · exact fun _ => .ill_bind (raises_raiseExpected _) .pure fun _ => rfl

/-- Skipping after an error. -/
theorem tells_recover (expected : List TokenKind) (stop : State → Bool) :
    Tells (do
      raiseExpected expected
      let _ ← skipUntil limits stop
      return false) := fun _ _ =>
  .ill_bind (raises_raiseExpected _)
    ((Runs.inherited.skipUntil limits stop).bind fun _ => .pure) fun _ => rfl

theorem answers_tooDeep : (tooDeep limits).Answers s := by
  refine (Ensures.raises_ill (raises_raiseHere _)).bind fun _ _ t _ ht => .bind_pure ?_
  exact .of_runs (Runs.inherited.skipGroup limits) ⟨rfl, ht.ill (Runs.inherited.skipGroup limits t)⟩

/-! ### Strings and arrays -/

/-- An error about its rounds is all that a concatenation of strings can raise. -/
theorem stringTail_told (budget : Nat) :
    (stringTail budget).Ensures s fun _ _ t => s.Told true t := by
  induction budget generalizing s with
  | zero =>
    refine .view_bind (.ite (fun _ => ?_) fun _ => .pure (.of_eq rfl))
    apply Ensures.of_runs (Runs.inherited.raiseHere _)
    refine ⟨[⟨.parserStuck "string_expr", s.token.span⟩], rfl, fun _ e he => ?_, nofun⟩
    rw [List.mem_singleton.1 he]
  | succ budget ih =>
    refine .view_bind (.ite (fun _ => ?_) fun _ => .pure (.of_eq rfl))
    refine (Ensures.quiet .bump .bump).bind fun _ _ t _ ht => ?_
    refine (Ensures.quiet .bump .bump).bind fun _ _ u _ hu => ?_
    exact ih.mono fun _ _ _ _ hv => (ht.trans hu).trans hv

theorem answers_stringExpr (hs : s.current = .string) : (stringExpr limits).Answers s := by
  refine .isAt_bind (fun _ => ?_) fun hc => absurd hs hc
  refine .answers (.well_bind (.quiet .bump .bump) fun _ _ t _ => ?_)
  exact (stringTail_told limits.maxIterations).bind fun _ _ _ _ hu => .pure hu

theorem arrayElement_told :
    arrayElement.Ensures s fun o es t => o = .noMatch ∧ es = [] ∧ t = s ∨
      o.isMatch = true ∧ s.Told o.isComplete t ∧ s.Told true t := by
  refine .view_bind (.ite (fun _ => ?_) fun _ => .pure (.inl ⟨rfl, rfl, rfl⟩))
  refine .nodeOutcome (.bind_pure ((Ensures.quiet .bump .bump).mono fun _ _ t _ ht => .inr ?_))
  exact ⟨rfl, ht, ht⟩

theorem tells_elementsLoop (budget : Nat) : (elementsLoop limits budget).Tells := by
  induction budget with
  | zero => exact fun _ _ => .ill_bind (raises_raiseHere _) .pure fun _ => rfl
  | succ budget ih =>
    intro s H
    refine arrayElement_told.bind fun o _ t hr ht => ?_
    have Ht := hr.wf H
    have htold : s.Told true t := by
      rcases ht with ⟨-, -, rfl⟩ | ⟨-, -, ht⟩
      · exact .of_eq rfl
      · exact ht
    refine Ensures.mono (.ite (fun _ => tells_recover limits _ _ Ht) fun _ => .view_bind ?_)
      fun _ _ _ _ hu => htold.well hu
    split
    · refine .well_bind (.quiet .bump .bump) fun _ _ u hr' => ?_
      exact .view_bind (.ite (fun _ => .pure (.of_eq rfl)) fun _ => ih (hr'.wf Ht))
    · exact .pure (.of_eq rfl)
    · exact .pure (.of_eq rfl)
    · exact tells_recover limits _ _ Ht

theorem answers_elements (H : s.WF) : (elements limits).Answers s :=
  .answers (tells_elementsLoop limits limits.maxIterations H.opened)

theorem answers_array (H : s.WF) (room : Bool) (hs : s.current = .arrayStart) :
    (array limits room).Answers s := by
  refine .isAt_bind (fun _ => .ite nofun fun _ => ?_) fun hc => absurd hs hc
  refine .ite (fun _ => .answers ?_) fun _ => answers_tooDeep limits
  refine .well_bind (.quiet .bump .bump) fun _ _ t hr => ?_
  have Ht := hr.wf H.opened
  refine .told_and (.unlessAt (fun _ => .of_eq rfl) fun _ => ?_) fun _ u hr' => ?_
  · exact (answers_elements limits Ht).succeeds
  · exact tells_expect .arrayEnd (hr'.wf Ht)

theorem tellsOutcome_array (room : Bool) : (array limits room).TellsOutcome := by
  intro s H
  by_cases hs : s.current = .arrayStart
  · exact (answers_array limits H room hs).mono fun _ _ _ _ ht => .inr ht
  · exact .isAt_bind (fun hc => absurd hc hs) fun _ =>
      .ite (fun _ => .pure (.inl ⟨rfl, rfl, rfl⟩)) fun h => absurd rfl h

theorem tells_arrayTail (room : Bool) (budget : Nat) : (arrayTail limits room budget).Tells := by
  induction budget with
  | zero =>
    refine fun s _ => .view_bind (.ite (fun _ => ?_) fun _ => .pure (.of_eq rfl))
    exact .ill_bind (raises_raiseHere _) .pure fun _ => rfl
  | succ budget ih =>
    intro s H
    refine .view_bind (.ite (fun hc => ?_) fun _ => .pure (.of_eq rfl))
    obtain ⟨ks, hks⟩ := H.exists_kinds_two hc (by simp) (by simp)
    refine ((Ensures.quiet .bump .bump).and (Ensures.bump_takes H hks)).bind fun _ _ t hr ht => ?_
    have Ht := hr.wf H
    have hstart : t.current = .arrayStart := Ht.current_of_kinds (ht.2.kinds_eq_of hks)
    refine (answers_array limits Ht room hstart).bind fun o _ u hr' hu => .bind_pure ?_
    exact (ih (hr'.wf Ht)).mono fun _ _ _ _ hv => ht.1.well (hu.2.trans hv)

theorem answers_arrayExpr (H : s.WF) (room : Bool) (hs : s.current = .arrayStart) :
    (arrayExpr limits room).Answers s := by
  refine .isAt_bind (fun _ => .answers ?_) fun hc => absurd hs hc
  refine (answers_array limits H.opened room hs).bind fun o _ t hr ht => .bind_pure ?_
  exact (tells_arrayTail limits room limits.maxIterations (hr.wf H.opened)).mono fun _ _ _ _ hu =>
    ht.2.trans hu

/-! ### Pairs -/

section
variable {value : Rule Outcome} (hvalue : value.TellsOutcome) (hruns : value.Runs)
include hvalue

/-- What stands after an assignment: a value, or the error that there is none. -/
theorem tells_assigned {next : Rule Bool} (start : Span) (hnext : next.Runs)
    (hfalse : ∀ s, (next s).value = false) :
    Tells (do
      match ← value with
      | .complete _ => return true
      | .incomplete _ => return false
      | .noMatch =>
        raiseMissingValue start
        next) := by
  intro s H
  refine (hvalue H).bind fun o _ t _ ht => ?_
  rcases ht with ⟨rfl, rfl, rfl⟩ | ⟨hmatch, ht⟩
  · exact .ill_bind (raises_raiseMissingValue start) hnext hfalse
  · cases o with
    | complete => exact .pure ht
    | incomplete => exact .pure ht
    | noMatch => cases hmatch

theorem answers_pair (H : s.WF) (hs : s.current = .fieldName) : (pair limits value).Answers s := by
  have hskip : Runs (do let _ ← skipPair limits; return false : Rule Bool) :=
    (Runs.inherited.skipUntil limits _).bind fun _ => .pure
  refine .isAt_bind (fun _ => .view_bind (.answers ?_)) fun hc => absurd hs hc
  refine .well_bind (.quiet Runs.bump.node Quiet.bump.node) fun _ _ t hr => ?_
  refine .well_bind (.quiet (Runs.inherited.eat _) (Quiet.kept.eat _)) fun _ _ u hr' => ?_
  apply Ensures.ite <;> intro
  · exact tells_assigned hvalue s.token.span hskip (fun _ => rfl) (hr'.wf (hr.wf H.opened))
  · exact .ill_bind (raises_raiseExpected _) hskip fun _ => rfl

include hruns

/-- Where there is a pair, or something else than the end, a run of pairs tells. -/
theorem membersLoop_told (budget : Nat) (found : Bool) (H : s.WF)
    (h : found = true ∨ s.current ∉ [.objectEnd, .eof]) :
    (membersLoop limits value budget found).Ensures s fun ok _ t => s.Told ok t := by
  induction budget generalizing found s with
  | zero => exact .ill_bind (raises_raiseHere _) .pure fun _ => rfl
  | succ budget ih =>
    -- what is done about an error, after whatever went on before
    have hskip {ok : Bool} {t : State} (ht : s.Told ok t) (found : Bool)
        (expected : List TokenKind) : Ensures (do
          raiseExpected expected
          let _ ← skipMembers limits
          let _ ← membersLoop limits value budget found
          return false) t fun ok _ u => s.Told ok u := by
      have hrest : Runs (do
          let _ ← skipMembers limits
          let _ ← membersLoop limits value budget found
          return false : Rule Bool) := (Runs.inherited.skipUntil limits _).bind fun _ =>
        (Runs.inherited.membersLoop limits hruns budget found).bind fun _ => .pure
      refine (Ensures.raises_ill (raises_raiseExpected _)).bind fun _ _ u _ hu => .of_runs hrest ?_
      exact (Bool.and_false ok ▸ ht.trans hu).ill (hrest u)
    apply Ensures.view_bind
    generalize hk : s.current = k at h
    cases k with
    | objectEnd =>
      obtain rfl := h.resolve_right (by simp)
      exact .pure (.of_eq rfl)
    | eof =>
      obtain rfl := h.resolve_right (by simp)
      exact .pure (.of_eq rfl)
    | fieldName =>
      refine (answers_pair limits hvalue H hk).bind fun o _ t hr ht => .view_bind ?_
      have Ht := hr.wf H
      split
      · refine (Ensures.quiet .bump .bump).bind fun _ _ u hr' hu => .bind_pure ?_
        refine (ih true (hr'.wf Ht) (.inl rfl)).mono fun _ _ _ _ hv => ?_
        exact ht.2.trans (hu.well hv)
      · exact .pure ht.2
      · exact .pure ht.2
      · exact hskip ht.2 true _
    | _ => exact hskip (.of_eq rfl) found _

theorem answers_members (H : s.WF) (hs : s.current ∉ [.objectEnd, .eof]) :
    (members limits value).Answers s :=
  .answers (membersLoop_told limits hvalue hruns limits.maxIterations false H.opened (.inr hs))

theorem tells_body : (body limits value).Tells := by
  intro s H
  refine (tells_expect .objectStart H).bind fun ok _ t hr ht => .ite (fun hok => ?_) fun hok => ?_
  · subst hok
    have Ht := hr.wf H
    refine Ensures.mono (.told_and (.unlessAt (fun _ => .of_eq rfl) fun hc => ?_) fun _ u hr' => ?_)
      fun _ _ _ _ hu => ht.well hu
    · exact (answers_members limits hvalue hruns Ht hc).succeeds
    · exact tells_expect .objectEnd (hr'.wf Ht)
  · rw [Bool.not_eq_true] at hok
    exact .pure (hok ▸ ht)

end

end Rule

/-- The rules of the next level tell whether they raise something. -/
def Inner.Tells (inner : Option Inner) : Prop :=
  ∀ rules ∈ inner, rules.value.TellsOutcome ∧ ∀ budget, (rules.links budget).Tells

namespace Rule

variable {s : State} (limits : Limits)

section
variable {inner : Option Inner} (hinner : Inner.Tells inner) (hruns : Inner.Runs inner)
include hinner hruns

/-! ### Values -/

theorem answers_object (H : s.WF) (hs : s.current = .objectStart) :
    (object limits inner).Answers s := by
  refine .isAt_bind (fun _ => .ite (fun _ => ?_) fun h => absurd rfl h) fun hc => absurd hs hc
  split
  · next rules =>
    exact .answers (tells_body limits (hinner rules rfl).1 (hruns rules rfl).1 H.opened)
  · exact answers_tooDeep limits

theorem tells_operand : (operand limits inner).Tells := by
  refine fun s H => .view_bind ?_
  split
  · next hs => exact (answers_stringExpr limits hs).succeeds
  · next hs => exact (answers_arrayExpr limits H inner.isSome hs).succeeds
  · next hs => exact (answers_object limits hinner hruns H hs).succeeds
  · exact .bind_pure (.quiet .bump .bump)

theorem tells_links (budget : Nat) : (links limits inner budget).Tells := by
  cases budget with
  | zero => exact fun _ _ => .ill_bind (raises_raiseHere _) .pure fun _ => rfl
  | succ budget =>
    refine fun s H => .well_bind (.quiet .bump .bump) fun _ _ t hr => ?_
    refine .view_bind (.ite (fun _ => ?_) fun _ => .pure (.of_eq rfl))
    refine .well_bind (.quiet .bump .bump) fun _ _ u hr' => ?_
    have Hu := hr'.wf (hr.wf H)
    refine .view_bind (.ite (fun _ => ?_) fun _ => .bind_pure (.node ?_))
    · split
      · next rules =>
        exact .bind_pure (.node (.node ((hinner rules rfl).2 budget Hu.opened.opened)))
      · refine .ill_bind (raises_raiseHere _) ?_ fun _ => rfl
        exact (Runs.inherited.skipChain limits).bind fun _ => .pure
    · exact tells_operand limits hinner hruns Hu.opened

theorem answers_variableRefExpr (H : s.WF) (hs : s.current = .variableValueRef) :
    (variableRefExpr limits inner).Answers s := by
  refine .isAt_bind (fun _ => ?_) fun hc => absurd hs hc
  exact .answers (tells_links limits hinner hruns limits.maxIterations H.opened)

theorem tellsOutcome_value : (value limits inner).TellsOutcome := by
  intro s H
  refine .view_bind (.ite (fun _ => ?_) fun _ => .pure (.inl ⟨rfl, rfl, rfl⟩))
  refine Ensures.mono (.answers (.isAt_bind (fun hs => ?_) fun _ => ?_)) fun _ _ _ _ ht => .inr ht
  · exact (answers_variableRefExpr limits hinner hruns H.opened hs).succeeds
  · exact tells_operand limits hinner hruns H.opened

end

theorem tells_innerAt (room : Nat) : Inner.Tells (innerAt limits room) := by
  induction room with
  | zero => exact fun _ h => nomatch h
  | succ room ih =>
    intro rules h
    cases h
    have hruns := Runs.inherited.innerAt limits room
    exact ⟨tellsOutcome_value limits ih hruns, tells_links limits ih hruns⟩

theorem tellsOutcome_value_innerAt (room : Nat) :
    (value limits (innerAt limits room)).TellsOutcome :=
  tellsOutcome_value limits (tells_innerAt limits room) (Runs.inherited.innerAt limits room)

/-! ### Items -/

variable (room : Nat)

theorem answers_blueprint (H : s.WF) (hs : s.current = .blueprintTypeName) :
    (blueprint limits room).Answers s := by
  refine .isAt_bind (fun _ => .answers ?_) fun hc => absurd hs hc
  refine .well_bind (.quiet Runs.bump.node Quiet.bump.node) fun _ _ t hr => ?_
  exact tells_body limits (tellsOutcome_value_innerAt limits room)
    (Runs.inherited.value_innerAt limits room) (hr.wf H.opened)

theorem answers_variableDef (H : s.WF) (hs : s.current = .variableName) :
    (variableDef limits room).Answers s := by
  refine .isAt_bind (fun _ => .view_bind (.answers ?_)) fun hc => absurd hs hc
  refine .well_bind (.quiet .bump .bump) fun _ _ t hr => ?_
  refine .well_bind (.quiet Runs.inherited.eatAssignment Quiet.kept.eatAssignment)
    fun _ _ u hr' => ?_
  refine .ite (fun _ => ?_) fun _ => .ill_bind (raises_raiseExpected _) .pure fun _ => rfl
  exact tells_assigned (tellsOutcome_value_innerAt limits room) s.token.span .pure (fun _ => rfl)
    (hr'.wf (hr.wf H.opened))

/-! ### Calls -/

/-- Without a pair to read, an object or module has no complete members. -/
theorem members_closed {value : Rule Outcome} (hruns : value.Runs)
    (hs : s.current ∈ [.objectEnd, .eof]) :
    (members limits value).Ensures s fun o _ _ => o.isMatch = true ∧ o.isComplete = false := by
  have hfound : ∀ budget, (membersLoop limits value budget false s.opened).value = false := by
    intro budget
    cases budget with
    | zero => rfl
    | succ budget =>
      have hcurrent : s.opened.current = s.current := rfl
      rcases List.mem_pair.1 hs with hs | hs <;>
        simp only [membersLoop, current, bind_apply, view_apply, hcurrent, hs, pure_apply]
  refine .nodeOutcome (.of_runs (Runs.inherited.membersLoop limits hruns _ _) ?_)
  rw [hfound]
  exact ⟨rfl, rfl⟩

/-- Every production tells, unless it is one for pairs and there is none. -/
theorem tellsOutcome_produce (H : s.WF) (production : Production) :
    (production.rule limits room).Ensures s fun o es t => o = .noMatch ∧ es = [] ∧ t = s ∨
      o.isMatch = true ∧ (s.Told o.isComplete t ∨
        o.isComplete = false ∧ production = .members ∧ s.current ∈ [.objectEnd, .eof]) := by
  have hinner := tells_innerAt limits room
  have hruns := Runs.inherited.innerAt limits room
  have hvalue := tellsOutcome_value limits hinner hruns
  have of_tells {r : Rule Outcome} (h : r.TellsOutcome) : r.Ensures s fun o es t =>
      o = .noMatch ∧ es = [] ∧ t = s ∨ o.isMatch = true ∧ (s.Told o.isComplete t ∨
        o.isComplete = false ∧ production = .members ∧ s.current ∈ [.objectEnd, .eof]) :=
    (h H).mono fun _ _ _ _ => .imp_right (.imp_right .inl)
  cases production with
  | blueprint => exact of_tells (tellsOutcome_isAt fun _ => answers_blueprint limits room)
  | «variable» => exact of_tells (tellsOutcome_isAt fun _ => answers_variableDef limits room)
  | members =>
    by_cases hs : s.current ∈ [.objectEnd, .eof]
    · exact (members_closed limits (Runs.inherited.value limits hruns) hs).mono
        fun _ _ _ _ h => .inr ⟨h.1, .inr ⟨h.2, rfl, hs⟩⟩
    · exact (answers_members limits hvalue (Runs.inherited.value limits hruns) H hs).mono
        fun _ _ _ _ h => .inr ⟨h.1, .inl h.2⟩
  | pair => exact of_tells (tellsOutcome_isAt fun _ => answers_pair limits hvalue)
  | object => exact of_tells (tellsOutcome_isAt fun _ => answers_object limits hinner hruns)
  | value => exact of_tells hvalue
  | stringExpr => exact of_tells (tellsOutcome_isAt fun _ _ => answers_stringExpr limits)
  | arrayExpr => exact of_tells (tellsOutcome_isAt fun _ H => answers_arrayExpr limits H _)
  | array => exact of_tells (tellsOutcome_array limits _)
  | elements => exact of_tells fun _ H => (answers_elements limits H).mono fun _ _ _ _ => .inr
  | arrayElement =>
    exact of_tells fun _ _ => arrayElement_told.mono fun _ _ _ _ => .imp_right (.imp_right And.left)
  | variableRefExpr =>
    exact of_tells (tellsOutcome_isAt fun _ => answers_variableRefExpr limits hinner hruns)

end Rule

/-- What the reply to a call in front of `s` tells of the errors that were raised meanwhile, on
record or not. The rule did not apply and left everything as it was, or all went well, or there was
an error. One rule is not asked where it would keep an error to itself: `body` calls for pairs only
where there is something to read. -/
structure Reply.Telling (production : Production) (s : State) (raised : List SyntaxError)
    (r : Reply Outcome) : Prop where
  raised_eq : r.state.raised = raised ++ s.raised
  noMatch : r.value = .noMatch → r = ⟨.noMatch, [], s⟩
  complete : r.value.isComplete = true → ∀ e ∈ raised, e.problem = .parserStuck "string_expr"
  incomplete : r.value.isMatch = true → r.value.isComplete = false → raised = [] →
    production = .members ∧ s.current ∈ [.objectEnd, .eof]

/-- Wherever a text has led the grammar, and whatever the limits are, the outcome of a call tells
whether the call raised something. -/
theorem produce_tells {source : String} {s : State} {es : List Element}
    (h : Run (State.start source) es s) (limits : Limits) (room : Nat) (production : Production) :
    ∃ raised, (production.rule limits room s).Telling production s raised := by
  have H := h.wf (State.wf_start source)
  obtain ⟨hrun, hcall⟩ := Rule.tellsOutcome_produce limits room H production
  generalize production.rule limits room s = r at hrun hcall
  obtain ⟨o, fs, t⟩ := r
  rcases hcall with ⟨rfl, rfl, rfl⟩ | ⟨hmatch, ⟨raised, hraised, hwell, hill⟩ | ⟨hfalse, hnone⟩⟩
  · exact ⟨[], rfl, fun _ => rfl, nofun, nofun⟩
  · refine ⟨raised, hraised, ?_, hwell, fun _ hfalse hnil => absurd hnil (hill hfalse)⟩
    rintro rfl
    cases hmatch
  · obtain ⟨raised, hraised⟩ := hrun.raised_suffix
    refine ⟨raised, hraised.symm, ?_, fun h => ?_, fun _ _ _ => hnone⟩
    · rintro rfl
      cases hmatch
    · rw [hfalse] at h
      cases h

/-- The state after a variable and what assigns to it, for a text that starts so. -/
def State.assigned (source : String) : State :=
  (Rule.eatAssignment (Rule.bump (State.start source).opened).state).state

theorem State.exists_run_assigned (source : String) :
    ∃ es, Run (State.start source) es (assigned source) :=
  ⟨_, (Run.node .variable (.refl _)).trans
    ((Rule.Runs.bump _).trans (Rule.Runs.inherited.eatAssignment _))⟩

/-- An array without a comma, where something is raised. -/
theorem produce_tells_array :
    (∃ es, Run (State.start "x = [1 2]") es (.assigned "x = [1 2]")) ∧
      (Production.value.rule .standard 64 (.assigned "x = [1 2]")).value.isComplete = false ∧
      ∃ raised, (Production.value.rule .standard 64 (.assigned "x = [1 2]")).Telling .value
        (.assigned "x = [1 2]") raised := by
  obtain ⟨es, h⟩ := State.exists_run_assigned "x = [1 2]"
  exact ⟨⟨es, h⟩, by decide +kernel, produce_tells h .standard 64 .value⟩

/-- Where there is no value the call for one raises nothing, and gives no complete node. It did not
apply; that the value is missing is for the caller to say. -/
theorem value_absent_untold :
    (∃ es, Run (State.start "x =") es (.assigned "x =")) ∧
      ¬((Production.value.rule .standard 64 (.assigned "x =")).value.isComplete = true ↔
        (Production.value.rule .standard 64 (.assigned "x =")).state.raised =
          (State.assigned "x =").raised) :=
  ⟨State.exists_run_assigned "x =", by decide +kernel⟩

end Blueprint
