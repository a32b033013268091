import Blueprint.Proofs.Grammar.Reports

/-!
# No damage goes unreported

Every rule of the grammar reports the damage that it leaves. Errors that are dropped from the record
start where one starts that stays, so every damaged node of a tree has an error on record between
its start and the token after it (`parse_reports_damage`), whatever the text and the limits are.
-/

namespace Blueprint

open Element NodeKind

namespace Rule

variable (limits : Limits) {ts : List Token} {within : Option Nat} {s : State}

/-! ### Skipping -/

theorem reporting_skipLoop (stop : State → Bool) (budget depth : Nat) :
    (skipLoop stop budget depth).Reporting := by
  induction budget generalizing depth with
  | zero => exact .pure
  | succ budget ih =>
    exact Reporting.view.bind fun _ => .ite .pure <| Reporting.view.bind fun _ =>
      Reporting.bump.bind fun _ => ih _

theorem skipping_skipUntil (stop : State → Bool) : (skipUntil limits stop).Skipping := by
  intro ts within s H hs
  refine .view_bind <| .ite (fun _ => .pure .nil) fun _ => ?_
  exact (Skipping.node (reporting_skipLoop _ _ _)).bind_pure H hs

theorem reporting_bumpGroup (budget depth : Nat) : (bumpGroup budget depth).Reporting := by
  induction budget generalizing depth with
  | zero => exact .pure
  | succ budget ih =>
    exact Reporting.view.bind fun _ => .ite .pure <| Reporting.view.bind fun _ =>
      Reporting.bump.bind fun _ => .ite .pure (ih _)

theorem reporting_bumpChain (budget : Nat) : (bumpChain limits budget).Reporting := by
  induction budget with
  | zero => exact .pure
  | succ budget ih =>
    exact Reporting.view.bind fun _ => .ite .pure <| (reporting_bumpGroup _ _).bind fun _ =>
      Reporting.view.bind fun _ => .ite (Reporting.bump.bind fun _ => ih) .pure

theorem reporting_tooDeep : (tooDeep limits).Reporting :=
  reporting_recover (raisesFrom_raiseHere _) (Skipping.node (reporting_bumpGroup _ _)).bind_pure
    fun _ => .pure

/-! ### Strings and arrays -/

theorem reporting_stringTail (budget : Nat) : (stringTail budget).Reporting := by
  induction budget with
  | zero => exact Reporting.view.bind fun _ => .ite (.raises (raises_raiseHere _)) .pure
  | succ budget ih =>
    exact Reporting.view.bind fun _ => .ite (Reporting.bump.bind fun _ =>
      Reporting.bump.bind fun _ => ih) .pure

/-- A kind that is never damaged. -/
theorem not_damaged {kind : NodeKind} (h : kind ≠ .error) (h' : kind.essential = none)
    (word : List Symbol) : ¬kind.Damaged word := by
  rintro (hk | ⟨x, hx, -⟩)
  · exact h hk
  · rw [h'] at hx
    cases hx

theorem reporting_stringExpr : (stringExpr limits).Reporting :=
  Reporting.view.bind fun _ => .ite (.nodeOutcome (Reporting.bump.bind fun _ =>
    (reporting_stringTail _).bind fun _ => .pure) (not_damaged nofun rfl)) .pure

theorem reporting_arrayElement : arrayElement.Reporting :=
  Reporting.view.bind fun _ => .ite (.nodeOutcome (Reporting.bump.bind fun _ => .pure)
    (not_damaged nofun rfl)) .pure

theorem reporting_elementsLoop (budget : Nat) : (elementsLoop limits budget).Reporting := by
  induction budget with
  | zero => exact (Reporting.raises (raises_raiseHere _)).bind fun _ => .pure
  | succ budget ih =>
    refine reporting_arrayElement.bind fun _ => .ite ?_ (Reporting.view.bind fun kind => ?_)
    · exact reporting_recover (raisesFrom_raiseExpected _) (skipping_skipUntil limits _)
        fun _ => .pure
    · split
      · exact Reporting.bump.bind fun _ => Reporting.view.bind fun _ => .ite .pure ih
      · exact .pure
      · exact .pure
      · exact reporting_recover (raisesFrom_raiseExpected _) (skipping_skipUntil limits _)
          fun _ => .pure

/-- What is not closed lacks its bracket at the token after it. -/
theorem closing_supplies {k : TokenKind} {inside : Rule Bool} (hk : k ≠ .eof)
    (hinside : inside.Reporting) (H : Watched ts within s) :
    (do let ok ← inside; let closed ← expect k; return ok && closed : Rule Bool).Ensures s
      fun _ es t => Supplies ts within (.token k) s.token.span.start es t :=
  (hinside H).bind fun _ _ _ hr hes => .bind_pure <| (expect_blames (H.run hr) hk).mono
    fun _ _ _ hr' hfs => hfs.1.prepend hes hr' (H.start_le hr)

theorem reporting_array (room : Bool) : (array limits room).Reporting := by
  have helements : (elements limits).Reporting :=
    .nodeOutcome (reporting_elementsLoop limits _) (not_damaged nofun rfl)
  intro ts within s H
  refine .view_bind <| .ite (fun _ => .pure .nil) fun _ => .ite (fun _ => ?_)
    fun _ => reporting_tooDeep limits H
  have Ho : Watched ts none s.opened := H.opened .array
  refine nodeOutcome_reports H rfl ((Reporting.bump Ho).bind fun _ es t hr hes => ?_)
  exact (closing_supplies (by decide) helements.succeeds.unlessAt (Ho.run hr)).mono
    fun _ fs u hr' hfs => hfs.prepend hes hr' (Ho.start_le hr)

theorem reporting_arrayTail (room : Bool) (budget : Nat) :
    (arrayTail limits room budget).Reporting := by
  induction budget with
  | zero =>
    exact Reporting.view.bind fun _ =>
      .ite ((Reporting.raises (raises_raiseHere _)).bind fun _ => .pure) .pure
  | succ budget ih =>
    exact Reporting.view.bind fun _ => .ite (Reporting.bump.bind fun _ =>
      (reporting_array limits room).bind fun _ => ih.bind fun _ => .pure) .pure

theorem reporting_arrayExpr (room : Bool) : (arrayExpr limits room).Reporting :=
  Reporting.view.bind fun _ => .ite (.nodeOutcome ((reporting_array limits room).bind fun _ =>
    (reporting_arrayTail limits room _).bind fun _ => .pure) (not_damaged nofun rfl)) .pure

/-! ### Pairs -/

/-- The rule makes a value or does nothing. -/
def YieldsValue (r : Rule Outcome) : Prop :=
  ∀ s, (r s).value.isMatch = true ∧ .node .value ∈ symbols (r s).emitted ∨
    r s = ⟨.noMatch, [], s⟩

theorem nodeOutcome_yields (kind : NodeKind) (body : Rule Bool) (s : State) :
    (nodeOutcome kind body s).value.isMatch = true ∧
      .node kind ∈ symbols (nodeOutcome kind body s).emitted := by
  rw [nodeOutcome, bind_apply, pure_apply, node_apply]
  constructor
  · cases (body s.opened).value <;> rfl
  · simp

/-- A value makes a node, or it does not apply. -/
theorem yields_value (inner : Option Inner) : YieldsValue (value limits inner) := by
  intro s
  cases h : valueStart.contains s.current with
  | false =>
    right
    simp only [value, isAtAny, bind_apply, view_apply, h]
    rfl
  | true =>
    left
    simp only [value, isAtAny, bind_apply, view_apply, h, if_true]
    exact nodeOutcome_yields _ _ _

/-- What a pair and a variable rely on about the rule for their value. -/
structure ReportsValue (r : Rule Outcome) : Prop where
  reporting : r.Reporting
  yields : YieldsValue r

theorem ReportsValue.ensures {r : Rule Outcome} (hr : ReportsValue r) (H : Watched ts within s) :
    r.Ensures s fun o es t => Reports ts within es t ∧
      (o.isMatch = true ∧ .node .value ∈ symbols es ∨ o = .noMatch ∧ es = [] ∧ t = s) := by
  refine (hr.reporting H).and ⟨(hr.reporting H).1, ?_⟩
  refine (hr.yields s).imp_right fun h => ?_
  rw [h]
  exact ⟨rfl, rfl, rfl⟩

/-- An error in a pair, after which the rest of the pair is skipped. -/
theorem skipPair_supplies {start : Nat} {r : Rule Unit}
    (H : Watched ts (some start) s) (hr : RaisesFrom start s r) :
    (do r; let _ ← skipPair limits; return false : Rule Bool).Ensures s fun _ es t =>
      Supplies ts (some start) (.node .value) start es t := by
  refine raisesFrom_bind hr fun t hrun _ hblames => .bind_pure ?_
  have Ht := H.run hrun
  exact (skipping_skipUntil limits _ Ht hblames).mono fun _ es u hr' hes =>
    ⟨hes, .inr (hblames.run Ht hr')⟩

section
variable {value : Rule Outcome} (hvalue : ReportsValue value)
include hvalue

/-- A value, or what is done about it when it is missing. -/
theorem value_supplies {missing : Rule Bool} {start : Nat} (H : Watched ts within s)
    (hmissing : missing.Ensures s fun _ es t => Supplies ts within (.node .value) start es t) :
    (do
      match ← value with
      | .complete _ => return true
      | .incomplete _ => return false
      | .noMatch => missing : Rule Bool).Ensures s fun _ es t =>
        Supplies ts within (.node .value) start es t := by
  refine (hvalue.ensures H).bind fun o es t hr hes => ?_
  rcases hes.2 with ⟨hmatch, hmem⟩ | ⟨rfl, rfl, rfl⟩
  · have hdone : Supplies ts within (.node .value) start (es ++ []) t := by
      rw [List.append_nil]
      exact ⟨hes.1, .inl hmem⟩
    cases o with
    | complete => exact .pure hdone
    | incomplete => exact .pure hdone
    | noMatch => cases hmatch
  · exact hmissing

theorem reporting_pair : (pair limits value).Reporting := by
  have hname : (node .fieldName bump).Reporting := Reporting.bump.node (not_damaged nofun rfl)
  intro ts within s H
  refine .view_bind <| .ite (fun _ => .view_bind ?_) fun _ => .pure .nil
  have Ho : Watched ts (some s.token.span.start) s.opened := H.opened .pair
  refine nodeOutcome_reports H rfl ((hname Ho).bind fun _ es t hr hes => ?_)
  have Ht := Ho.run hr
  refine Ensures.mono (q := fun _ fs u =>
    Supplies ts (some s.token.span.start) (.node .value) s.token.span.start fs u) ?_
    fun _ fs u hr' hfs => hfs.prepend hes hr' (Nat.le_refl _)
  refine (eat_previous Ht (by decide)).bind fun ok fs u hr' hfs => ?_
  have Hu := Ht.run hr'
  have hstart : s.token.span.start ≤ u.token.span.start := Hu.pair_le _ rfl
  refine .ite (fun hok => ?_) fun _ => ?_
  · have hprevious : s.token.span.start ≤ u.previousSpan.start := by
      rw [State.previousSpan, hfs.2 hok]
      exact Ht.pair_le _ rfl
    have hmissing := skipPair_supplies limits Hu (raisesFrom_raiseMissingValue hprevious hstart)
    exact (value_supplies hvalue Hu hmissing).mono fun _ gs v hr'' hgs =>
      hgs.prepend hfs.1 hr'' (Nat.le_refl _)
  · have hraise := (raisesFrom_raiseExpected [.equals] u).mono hstart
    exact (skipPair_supplies limits Hu hraise).mono fun _ gs v hr'' hgs =>
      hgs.prepend hfs.1 hr'' (Nat.le_refl _)

theorem reporting_membersLoop (budget : Nat) (found : Bool) :
    (membersLoop limits value budget found).Reporting := by
  have hskip : ∀ {budget : Nat} {found : Bool} {kinds : List TokenKind},
      (membersLoop limits value budget found).Reporting → Reporting (do
        raiseExpected kinds
        let _ ← skipMembers limits
        let _ ← membersLoop limits value budget found
        return false) := fun h =>
    reporting_recover (raisesFrom_raiseExpected _) (skipping_skipUntil limits _) fun _ =>
      h.bind fun _ => .pure
  induction budget generalizing found with
  | zero => exact (Reporting.raises (raises_raiseHere _)).bind fun _ => .pure
  | succ budget ih =>
    refine Reporting.view.bind fun _ => ?_
    split
    · exact .pure
    · exact .pure
    · refine (reporting_pair limits hvalue).bind fun _ => Reporting.view.bind fun _ => ?_
      split
      · exact Reporting.bump.bind fun _ => (ih _).bind fun _ => .pure
      · exact .pure
      · exact .pure
      · exact hskip (ih _)
    · exact hskip (ih _)

theorem body_supplies (H : Watched ts within s) :
    (body limits value).Ensures s fun _ es t =>
      Supplies ts within (.token .objectEnd) s.token.span.start es t := by
  have hmembers : (members limits value).Reporting :=
    .nodeOutcome (reporting_membersLoop limits hvalue _ _) (not_damaged nofun rfl)
  refine (expect_blames H (by decide)).bind fun ok es t hr hes => .ite (fun _ => ?_) fun hok => ?_
  · exact (closing_supplies (by decide) hmembers.succeeds.unlessAt (H.run hr)).mono
      fun _ fs u hr' hfs => hfs.prepend hes.1.reports hr' (H.start_le hr)
  · refine .pure ?_
    rw [List.append_nil]
    exact ⟨hes.1.reports, .inr (hes.2 (Bool.not_eq_true _ ▸ hok))⟩

end

end Rule

/-- The rules of the next level report the damage that they leave. -/
def Inner.Reporting (inner : Option Inner) : Prop :=
  ∀ rules ∈ inner, rules.value.ReportsValue ∧ ∀ budget, (rules.links budget).Reporting

namespace Rule

variable (limits : Limits) {ts : List Token} {within : Option Nat} {s : State}

section
variable {inner : Option Inner} (hinner : Inner.Reporting inner)
include hinner

theorem reporting_object : (object limits inner).Reporting := by
  intro ts within s H
  refine .view_bind <| .ite (fun _ => ?_) fun _ => .pure .nil
  split
  · next rules =>
    exact nodeOutcome_reports H rfl (body_supplies limits (hinner rules rfl).1 (H.opened .object))
  · exact reporting_tooDeep limits H

theorem reporting_operand : (operand limits inner).Reporting := by
  refine Reporting.view.bind fun _ => ?_
  split
  · exact (reporting_stringExpr limits).succeeds
  · exact (reporting_arrayExpr limits _).succeeds
  · exact (reporting_object limits hinner).succeeds
  · exact Reporting.bump.bind fun _ => .pure

theorem reporting_links (budget : Nat) : (links limits inner budget).Reporting := by
  cases budget with
  | zero => exact (Reporting.raises (raises_raiseHere _)).bind fun _ => .pure
  | succ budget =>
    have hvalue : ∀ word, ¬NodeKind.value.Damaged word := not_damaged nofun rfl
    have href : ∀ word, ¬NodeKind.variableRefExpr.Damaged word := not_damaged nofun rfl
    refine Reporting.bump.bind fun _ => Reporting.view.bind fun _ =>
      .ite (Reporting.bump.bind fun _ => Reporting.view.bind fun _ => .ite ?_ ?_) .pure
    · split
      · next rules =>
        exact ((((hinner rules rfl).2 budget).node href).node hvalue).bind fun _ => .pure
      · exact reporting_recover (raisesFrom_raiseHere _)
          (Skipping.node (reporting_bumpChain limits _)).bind_pure fun _ => .pure
    · exact ((reporting_operand limits hinner).node hvalue).bind fun _ => .pure

theorem reporting_variableRefExpr : (variableRefExpr limits inner).Reporting :=
  Reporting.view.bind fun _ =>
    .ite (.nodeOutcome (reporting_links limits hinner _) (not_damaged nofun rfl)) .pure

theorem reportsValue : (value limits inner).ReportsValue where
  reporting := Reporting.view.bind fun _ => .ite (.nodeOutcome (Reporting.view.bind fun _ =>
    .ite (reporting_variableRefExpr limits hinner).succeeds (reporting_operand limits hinner))
    (not_damaged nofun rfl)) .pure
  yields := yields_value limits inner

end

theorem reporting_innerAt (room : Nat) : Inner.Reporting (innerAt limits room) := by
  induction room with
  | zero => exact fun _ h => nomatch h
  | succ room ih =>
    intro rules h
    cases h
    exact ⟨reportsValue limits ih, reporting_links limits ih⟩

/-! ### Files -/

variable (room : Nat)

theorem reporting_blueprint : (blueprint limits room).Reporting := by
  have hname : (node .blueprintType bump).Reporting := Reporting.bump.node (not_damaged nofun rfl)
  have hvalue := reportsValue limits (reporting_innerAt limits room)
  intro ts within s H
  refine .view_bind <| .ite (fun _ => ?_) fun _ => .pure .nil
  have Ho : Watched ts none s.opened := H.opened .blueprint
  refine nodeOutcome_reports H rfl ((hname Ho).bind fun _ es t hr hes => ?_)
  exact (body_supplies limits hvalue (Ho.run hr)).mono fun _ fs u hr' hfs =>
    hfs.prepend hes hr' (Ho.start_le hr)

/-- The token between a name and its value is the previous one once it is consumed. -/
theorem eatAssignment_previous (H : Watched ts within s) :
    eatAssignment.Ensures s fun ok es t =>
      Reports ts within es t ∧ (ok = true → t.previous = some s.token.span) := by
  refine ((Ensures.eat_takes H.wf (by decide)).and (eat_previous H (by decide))).bind
    fun ok es t hr ht => .ite (fun hok => .pure ?_) fun hok => ?_
  · rw [List.append_nil]
    exact ⟨ht.2.1, fun _ => ht.2.2 hok⟩
  · obtain ⟨⟨rfl, -⟩ | ⟨-, -, rfl, rfl⟩, -⟩ := ht
    · exact absurd rfl hok
    · exact eat_previous H (by decide)

theorem reporting_variableDef : (variableDef limits room).Reporting := by
  have hvalue := reportsValue limits (reporting_innerAt limits room)
  intro ts within s H
  refine .view_bind <| .ite (fun _ => .view_bind ?_) fun _ => .pure .nil
  have Ho : Watched ts none s.opened := H.opened .variable
  refine nodeOutcome_reports H rfl ((Reporting.bump Ho).bind fun _ es t hr hes => ?_)
  have Ht := Ho.run hr
  refine Ensures.mono (q := fun _ fs u =>
    Supplies ts none (.node .value) s.token.span.start fs u) ?_
    fun _ fs u hr' hfs => hfs.prepend hes hr' (Nat.le_refl _)
  refine (eatAssignment_previous Ht).bind fun ok fs u hr' hfs => ?_
  have Hu := Ht.run hr'
  have hstart : s.token.span.start ≤ u.token.span.start := Ho.start_le (hr.trans hr')
  refine .ite (fun hok => ?_) fun _ => ?_
  · have hprevious : s.token.span.start ≤ u.previousSpan.start := by
      rw [State.previousSpan, hfs.2 hok]
      exact Ho.start_le hr
    have hmissing := raisesFrom_raiseMissingValue hprevious hstart
    refine (value_supplies hvalue Hu (.bind_pure (hmissing.ensures fun v _ _ hblames => ?_))).mono
      fun _ gs v hr'' hgs => hgs.prepend hfs.1 hr'' (Nat.le_refl _)
    exact ⟨.nil, .inr hblames⟩
  · have hraise := (raisesFrom_raiseExpected [.equals, .plusEquals] u).mono hstart
    refine .bind_pure (hraise.ensures fun v hrun _ hblames => ?_)
    exact ⟨hfs.1.append hrun .nil, .inr hblames⟩

theorem reporting_itemOrSkip : (itemOrSkip limits room).Reporting := by
  have hitem : (item limits room).Reporting := by
    refine Reporting.view.bind fun _ => ?_
    split
    · exact reporting_blueprint limits room
    · exact reporting_variableDef limits room
    · exact .pure
  exact hitem.bind fun _ => .ite .pure <|
    reporting_recover (raisesFrom_raiseExpected _) (skipping_skipUntil limits _) fun _ => .pure

theorem reporting_forceProgress (before : Nat) : (forceProgress before).Reporting :=
  Reporting.view.bind fun _ => .ite
    (reporting_recover (raisesFrom_raiseHere _) (Skipping.node .bump) fun _ => .pure) .pure

/-- Items that do not reach the end of the file stop at an error. -/
theorem items_reports (budget : Nat) (H : Watched ts within s) :
    (items limits room budget).Ensures s fun _ es t => Reports ts within es t ∧
      (t.atEof = true ∨ t.Blames t.token.span.start) := by
  induction budget generalizing s with
  | zero =>
    refine .view_bind <| .ite (fun h => .pure ⟨.nil, .inl h⟩) fun _ => ?_
    refine (raisesFrom_raiseHere _ s).ensures fun t _ htoken hblames => ⟨.nil, .inr ?_⟩
    rwa [htoken]
  | succ budget ih =>
    refine .view_bind <| .ite (fun h => .pure ⟨.nil, .inl h⟩) fun _ => .view_bind ?_
    refine (reporting_itemOrSkip limits room H).bind fun _ es t hr hes => ?_
    refine (reporting_forceProgress _ (H.run hr)).bind fun _ fs u hr' hfs => ?_
    refine (ih ((H.run hr).run hr')).mono fun _ gs v hr'' hgs => ⟨?_, hgs.2⟩
    exact hes.append (hr'.trans hr'') (hfs.append hr'' hgs.1)

theorem leftover_reports (H : Watched ts none s)
    (h : s.atEof = true ∨ s.Blames s.token.span.start) :
    leftover.Ensures s fun _ es t => Reports ts none es t := by
  refine .view_bind <| .ite (fun _ => .pure .nil) fun heof => .view_bind ?_
  have hall : ∀ us, (bumpAll us).Reporting := by
    intro us
    induction us with
    | nil => exact .pure
    | cons u us ih => exact Reporting.bump.bind fun _ => ih
  exact (Skipping.node (hall _)).bind_pure H (h.resolve_left heof)

theorem fileBody_reports (H : Watched ts none s) :
    Reports ts none (fileBody limits room s).emitted (fileBody limits room s).state := by
  have hcontents : (contents limits room limits.maxIterations).Ensures s fun _ es t =>
      Reports ts none es t :=
    (items_reports limits room _ H).bind fun _ es t hr hes =>
      (leftover_reports (H.run hr) hes.2).mono fun _ fs u hr' hfs => hes.1.append hr' hfs
  rw [fileBody_apply]
  exact Reported.append hcontents.2 ((Reported.map_token _).append (.token .nil))

end Rule

/-- For every error that was raised, one is on record that starts where it starts. -/
theorem SyntaxError.exists_mem_recorded {es : List SyntaxError} {e : SyntaxError} (h : e ∈ es) :
    ∃ e' ∈ recorded es, e'.span.start = e.span.start := by
  induction es with
  | nil => cases h
  | cons a es ih =>
    rw [recorded]
    split
    · next hany =>
      rw [Option.any_eq_true] at hany
      obtain ⟨k, hk, hstart⟩ := hany
      rcases List.mem_cons.1 h with rfl | h
      · exact ⟨k, List.mem_of_mem_head? hk, eq_of_beq hstart⟩
      · exact ih h
    · rcases List.mem_cons.1 h with rfl | h
      · exact ⟨e, .head _, rfl⟩
      · obtain ⟨e', he', hstart⟩ := ih h
        exact ⟨e', .tail _ he', hstart⟩

/-- Every damaged node has an error on record that starts between the node, or the pair that it is
skipped in, and the token after it. -/
theorem parse_reports_damage (source : String) (limits : Limits) :
    ∀ c ∈ (parse source limits).tree.cursors, c.Damaged →
      ∃ t, (parse source limits).tree.tokenAfter? c.span = some t ∧
        ∃ e ∈ (parse source limits).errors,
          c.blameStart ≤ e.span.start ∧ e.span.start ≤ t.span.start := by
  intro c hc hd
  have hreports := Rule.fileBody_reports limits limits.maxDepth (s := State.start source)
    ⟨⟨.first, State.stands_start source⟩, nofun⟩
  rcases List.mem_cons.1 hc with rfl | hc
  · have hfile : ∀ word, ¬NodeKind.file.Damaged word := Rule.not_damaged nofun rfl
    exact absurd hd (hfile _)
  · obtain ⟨t, ht, e, he, hle, hle'⟩ :=
      @Reported.of_mem_ofElements _ _ [(parse source limits).tree.root] hreports _ hc hd
    obtain ⟨e', he', hstart⟩ := SyntaxError.exists_mem_recorded he
    exact ⟨t, ht, e', List.mem_reverse.2 he', hstart ▸ hle, hstart ▸ hle'⟩

/-- The last node of the tree is an error that is skipped in a pair. -/
theorem parse_reports_damage_skipped :
    ∃ c, (parse "m \x7b a ] \x7d" ⟨2, 9⟩).tree.cursors.getLast? = some c ∧ c.Damaged ∧
      ∃ t, (parse "m \x7b a ] \x7d" ⟨2, 9⟩).tree.tokenAfter? c.span = some t ∧
        ∃ e ∈ (parse "m \x7b a ] \x7d" ⟨2, 9⟩).errors,
          c.blameStart ≤ e.span.start ∧ e.span.start ≤ t.span.start := by
  have hne : (parse "m \x7b a ] \x7d" ⟨2, 9⟩).tree.cursors ≠ [] := by decide +kernel
  have hd : ((parse "m \x7b a ] \x7d" ⟨2, 9⟩).tree.cursors.getLast
      (by decide +kernel)).Damaged := by
    decide +kernel
  exact ⟨_, List.getLast?_eq_some_getLast hne, hd,
    parse_reports_damage "m \x7b a ] \x7d" ⟨2, 9⟩ _ (List.getLast_mem hne) hd⟩

end Blueprint
