import Blueprint.Proofs.Grammar.Damage
import Blueprint.Proofs.Grammar.Levels
import Blueprint.Proofs.Grammar.Quiet
import Blueprint.Proofs.Tree.Regular

/-!
# Courses

A course is a run that is told more closely. Each of its errors is about the current token, or about
what was read since the course began, and each of its nodes has a kind that its parent may hold,
below a path that the depth limit allows. Every rule of the grammar follows a course, with the room
for each loop being whatever it is (`Rule.follows_contents`).
-/

namespace Blueprint

open Element

namespace NodeKind

/-- A node and the nodes above it, by their kinds: each may stand in the next, and they reach no
deeper than the depth limit. -/
structure Path (depth : Nat) (path : List NodeKind) : Prop where
  chain : path.IsChain fun kind parent => .node kind ∈ parent.form.atoms
  levels_le : levels path ≤ depth

namespace Path

variable {depth room : Nat} {kind parent : NodeKind} {above : List NodeKind}

/-- A node that takes up no level. -/
theorem child (H : Path depth (parent :: above)) (hkind : .node kind ∈ parent.form.atoms)
    (hlevel : kind.opensLevel (parent :: above) = false) : Path depth (kind :: parent :: above) := by
  refine ⟨.cons_cons hkind H.chain, ?_⟩
  rw [levels, hlevel]
  exact H.levels_le

/-- A node for which there is room. -/
theorem child_of_room (H : Path depth (parent :: above)) (hkind : .node kind ∈ parent.form.atoms)
    (hroom : levels (kind :: parent :: above) + room = depth) :
    Path depth (kind :: parent :: above) :=
  ⟨.cons_cons hkind H.chain, Nat.le.intro hroom⟩

end Path

end NodeKind

open NodeKind

/-- The steps from one state to another below a path of nodes, with what they emit. -/
inductive Course (depth : Nat) : List NodeKind → State → List Element → State → Prop
  | refl {above : List NodeKind} (s : State) : Course depth above s [] s
  | trans {above : List NodeKind} {s t u : State} {es fs : List Element} :
    Course depth above s es t → Course depth above t fs u → Course depth above s (es ++ fs) u
  | bump {above : List NodeKind} {s : State} {t : Token} {ts : List Token} : s.rest = t :: ts →
    Course depth above s (s.pending.map .token ++ [.token t]) (s.passed t ts)
  | raise {above : List NodeKind} (s : State) (problem : Problem) :
    Course depth above s [] { s with raised := ⟨problem, s.token.span⟩ :: s.raised }
  /-- An error about what was read, from the first token to one after it, when none was raised
  on the way. -/
  | blame {above : List NodeKind} {s t : State} {es : List Element} {u : Token} :
    Course depth above s es t → s.pending = [] → t.raised = s.raised → u ∈ leavesAll es →
    Course depth above s es
      { t with raised := ⟨.missingValue, s.token.span.merge u.span⟩ :: t.raised }
  | node {above : List NodeKind} {s t : State} {es : List Element} {kind : NodeKind} :
    Path depth (kind :: above) → Course depth (kind :: above) s.opened es t →
    Course depth above s (s.pending.map .token ++ [.node s.nodes kind (t.nodeSpan es) es]) t

theorem Course.run {depth : Nat} {above : List NodeKind} {s t : State} {es : List Element}
    (H : Course depth above s es t) : Run s es t := by
  induction H with
  | refl => exact .refl _
  | trans _ _ ih₁ ih₂ => exact ih₁.trans ih₂
  | bump h => exact .bump h
  | raise s problem => exact .raise s _
  | @blame _ s t es _ _ _ _ _ ih => exact es.append_nil ▸ ih.trans (.raise t _)
  | node _ _ ih => exact .node _ ih

namespace Rule

variable {α β : Type} {depth room : Nat} {above : List NodeKind}

/-- Wherever the rule runs, it follows a course below the path `above`. -/
def Follows (depth : Nat) (above : List NodeKind) (r : Rule α) : Prop :=
  ∀ ⦃s : State⦄, s.WF → r.Ensures s fun _ es t => Course depth above s es t

namespace Follows

variable {r r' : Rule α}

theorem pure {a : α} : Follows depth above (Pure.pure a : Rule α) := fun s _ => .pure (.refl s)

theorem bind {f : α → Rule β} (h : r.Follows depth above) (hf : ∀ a, (f a).Follows depth above) :
    (r >>= f).Follows depth above := fun _ H =>
  (h H).bind fun a _ _ hr hes => (hf a (hr.wf H)).mono fun _ _ _ _ hfs => hes.trans hfs

theorem view {f : State → α} : Follows depth above (Rule.view f) := fun s _ =>
  .of_runs .view (.refl s)

theorem ite {c : Prop} [Decidable c] (h : r.Follows depth above) (h' : r'.Follows depth above) :
    (if c then r else r').Follows depth above := fun _ H => .ite (fun _ => h H) fun _ => h' H

theorem bump : Follows depth above Rule.bump := by
  intro s _
  apply Ensures.of_runs .bump
  cases h : s.rest with
  | nil =>
    rw [bump_nil h]
    exact .refl s
  | cons t ts =>
    rw [bump_cons h]
    exact .bump h

theorem raiseHere (problem : Problem) : Follows depth above (Rule.raiseHere problem) :=
  fun s _ => .of_runs (Runs.inherited.raiseHere problem) (.raise s problem)

theorem raiseExpected (expected : List TokenKind) :
    Follows depth above (Rule.raiseExpected expected) :=
  fun s _ => .of_runs (Runs.inherited.raiseExpected expected) (.raise s _)

theorem node {kind : NodeKind} (hpath : Path depth (kind :: above))
    (h : r.Follows depth (kind :: above)) : (Rule.node kind r).Follows depth above :=
  fun _ H => .node ((h H.opened).mono fun _ _ _ _ hes => .node hpath hes)

theorem nodeOutcome {kind : NodeKind} {r : Rule Bool} (hpath : Path depth (kind :: above))
    (h : r.Follows depth (kind :: above)) : (Rule.nodeOutcome kind r).Follows depth above :=
  (h.node hpath).bind fun _ => pure

theorem succeeds {r : Rule Outcome} (h : r.Follows depth above) : r.succeeds.Follows depth above :=
  h.bind fun _ => pure

theorem unlessAt {kinds : List TokenKind} {r : Rule Bool} (h : r.Follows depth above) :
    (Rule.unlessAt kinds r).Follows depth above := view.bind fun _ => ite pure h

theorem eat (kind : TokenKind) : Follows depth above (Rule.eat kind) :=
  view.bind fun _ => ite (bump.bind fun _ => pure) pure

theorem eatAssignment : Follows depth above Rule.eatAssignment :=
  (eat _).bind fun _ => ite pure (eat _)

theorem expect (kind : TokenKind) : Follows depth above (Rule.expect kind) :=
  (eat _).bind fun _ => ite pure ((raiseExpected _).bind fun _ => pure)

end Follows

variable (limits : Limits)

/-! ### Skipping -/

theorem follows_skipLoop (stop : State → Bool) (budget nesting : Nat) :
    (skipLoop stop budget nesting).Follows depth above := by
  induction budget generalizing nesting with
  | zero => exact .pure
  | succ budget ih =>
    refine Follows.view.bind fun _ => .ite .pure ?_
    exact Follows.view.bind fun _ => Follows.bump.bind fun _ => ih _

theorem follows_skipUntil (hpath : Path depth (.error :: above)) (stop : State → Bool) :
    (skipUntil limits stop).Follows depth above :=
  Follows.view.bind fun _ =>
    .ite .pure (((follows_skipLoop _ _ _).node hpath).bind fun _ => .pure)

theorem follows_bumpGroup (budget nesting : Nat) :
    (bumpGroup budget nesting).Follows depth above := by
  induction budget generalizing nesting with
  | zero => exact .pure
  | succ budget ih =>
    refine Follows.view.bind fun _ => .ite .pure ?_
    exact Follows.view.bind fun _ => Follows.bump.bind fun _ => .ite .pure (ih _)

theorem follows_bumpChain (budget : Nat) : (bumpChain limits budget).Follows depth above := by
  induction budget with
  | zero => exact .pure
  | succ budget ih =>
    refine Follows.view.bind fun _ => .ite .pure ?_
    refine (follows_bumpGroup _ _).bind fun _ => Follows.view.bind fun _ => .ite ?_ .pure
    exact Follows.bump.bind fun _ => ih

theorem follows_tooDeep (hpath : Path depth (.error :: above)) :
    (tooDeep limits).Follows depth above := by
  refine (Follows.raiseHere _).bind fun _ => ?_
  refine Follows.bind (((follows_bumpGroup _ _).node hpath).bind fun _ => .pure) fun _ => .pure

/-- An error about the current token, then something that is skipped. -/
theorem follows_recover {expected : List TokenKind} {stop : State → Bool} {next : Rule β}
    (hpath : Path depth (.error :: above)) (hnext : next.Follows depth above) :
    Follows depth above (do
      raiseExpected expected
      let _ ← skipUntil limits stop
      next) :=
  (Follows.raiseExpected _).bind fun _ => (follows_skipUntil limits hpath _).bind fun _ => hnext

/-! ### Strings and arrays -/

theorem follows_stringTail (budget : Nat) : (stringTail budget).Follows depth above := by
  induction budget with
  | zero => exact Follows.view.bind fun _ => .ite (.raiseHere _) .pure
  | succ budget ih =>
    refine Follows.view.bind fun _ => .ite ?_ .pure
    exact Follows.bump.bind fun _ => Follows.bump.bind fun _ => ih

theorem follows_stringExpr (hpath : Path depth (.stringExpr :: above)) :
    (stringExpr limits).Follows depth above := by
  refine Follows.view.bind fun _ => .ite (.nodeOutcome hpath ?_) .pure
  exact Follows.bump.bind fun _ => (follows_stringTail _).bind fun _ => .pure

theorem follows_arrayElement (hpath : Path depth (.arrayElement :: above)) :
    arrayElement.Follows depth above :=
  Follows.view.bind fun _ => .ite (.nodeOutcome hpath (Follows.bump.bind fun _ => .pure)) .pure

theorem follows_elementsLoop (hpath : Path depth (.elements :: above)) (budget : Nat) :
    (elementsLoop limits budget).Follows depth (.elements :: above) := by
  have herror : Path depth (.error :: .elements :: above) := hpath.child (by decide) rfl
  have helement : Path depth (.arrayElement :: .elements :: above) := hpath.child (by decide) rfl
  induction budget with
  | zero => exact (Follows.raiseHere _).bind fun _ => .pure
  | succ budget ih =>
    refine (follows_arrayElement helement).bind fun _ => .ite ?_ (Follows.view.bind fun kind => ?_)
    · exact follows_recover limits herror .pure
    · split
      · exact Follows.bump.bind fun _ => Follows.view.bind fun _ => .ite .pure ih
      · exact .pure
      · exact .pure
      · exact follows_recover limits herror .pure

theorem follows_array {more : Bool} (hpath : more = true → Path depth (.array :: above))
    (herror : Path depth (.error :: above)) : (array limits more).Follows depth above := by
  refine Follows.view.bind fun _ => .ite .pure ?_
  cases more with
  | false => exact follows_tooDeep limits herror
  | true =>
    have helements : Path depth (.elements :: .array :: above) := (hpath rfl).child (by decide) rfl
    refine .nodeOutcome (hpath rfl) (Follows.bump.bind fun _ => ?_)
    have hinside := (Follows.nodeOutcome helements
      (follows_elementsLoop limits helements limits.maxIterations)).succeeds
    exact hinside.unlessAt.bind fun _ => (Follows.expect _).bind fun _ => .pure

theorem follows_arrayTail {more : Bool} (hpath : more = true → Path depth (.array :: above))
    (herror : Path depth (.error :: above)) (budget : Nat) :
    (arrayTail limits more budget).Follows depth above := by
  induction budget with
  | zero => exact Follows.view.bind fun _ => .ite ((Follows.raiseHere _).bind fun _ => .pure) .pure
  | succ budget ih =>
    refine Follows.view.bind fun _ => .ite (Follows.bump.bind fun _ => ?_) .pure
    exact (follows_array limits hpath herror).bind fun _ => ih.bind fun _ => .pure

theorem follows_arrayExpr {more : Bool} (hpath : Path depth (.arrayExpr :: above))
    (hmore : more = true → levels above < depth) :
    (arrayExpr limits more).Follows depth above := by
  have harray (h : more = true) : Path depth (.array :: .arrayExpr :: above) :=
    ⟨.cons_cons (by decide) hpath.chain, hmore h⟩
  have herror : Path depth (.error :: .arrayExpr :: above) := hpath.child (by decide) rfl
  refine Follows.view.bind fun _ => .ite (.nodeOutcome hpath ?_) .pure
  refine (follows_array limits harray herror).bind fun _ => ?_
  exact (follows_arrayTail limits harray herror _).bind fun _ => .pure

/-! ### Values that are missing -/

/-- A token that was consumed is the previous one, and nothing was raised. -/
theorem eat_quiet {s : State} (H : s.WF) {k : TokenKind} (hk : k ≠ .eof) :
    (eat k).Ensures s fun ok es t => t.raised = s.raised ∧
      (ok = true → ∃ u ∈ leavesAll es, t.previous = some u.span) := by
  refine Ensures.isAt_bind (fun hc => ?_) fun _ => .pure ⟨rfl, nofun⟩
  obtain ⟨ks, hks⟩ := H.exists_kinds hc hk
  obtain ⟨t, ts, hrest, -⟩ := H.exists_rest hks
  refine .bind_pure (.of_runs .bump ?_)
  rw [bump_cons hrest]
  refine ⟨rfl, fun _ => ⟨t, ?_, rfl⟩⟩
  simp [leavesAll, leaves]

theorem eatAssignment_quiet {s : State} (H : s.WF) :
    eatAssignment.Ensures s fun ok es t => t.raised = s.raised ∧
      (ok = true → ∃ u ∈ leavesAll es, t.previous = some u.span) := by
  refine (eat_quiet H (by simp)).bind fun ok es t hr h => .ite (fun hok => ?_) fun _ => ?_
  · refine .pure ⟨h.1, fun _ => ?_⟩
    rw [List.append_nil]
    exact h.2 hok
  · refine (eat_quiet (hr.wf H) (by simp)).mono fun ok fs u _ h' => ⟨h'.1.trans h.1, fun hok => ?_⟩
    obtain ⟨v, hv, hprevious⟩ := h'.2 hok
    rw [leavesAll_append]
    exact ⟨v, List.mem_append_right _ hv, hprevious⟩

section
variable {value : Rule Outcome} (hyields : YieldsValue value)
include hyields

/-- What stands after an assignment: a value, or the error that there is none. -/
theorem follows_assigned (hvalue : value.Follows depth above) {s t : State} {es : List Element}
    {next : Rule Bool} (H : t.WF) (hcourse : Course depth above s es t)
    (hpending : s.pending = []) (hraised : t.raised = s.raised)
    (hprevious : ∃ u ∈ leavesAll es, t.previous = some u.span) (hnext : next.Follows depth above) :
    (do
      match ← value with
      | .complete _ => return true
      | .incomplete _ => return false
      | .noMatch =>
        raiseMissingValue s.token.span
        next : Rule Bool).Ensures t fun _ fs u => Course depth above s (es ++ fs) u := by
  have hmatch : value.Ensures t fun o fs u =>
      Course depth above t fs u ∧ (o = .noMatch → fs = [] ∧ u = t) := by
    refine (hvalue H).and ⟨(hvalue H).1, fun ho => ?_⟩
    rcases hyields t with ⟨hmatch, -⟩ | hreply
    · rw [ho] at hmatch
      cases hmatch
    · rw [hreply]
      exact ⟨rfl, rfl⟩
  refine hmatch.bind fun o fs u hr h => ?_
  have hdone : Course depth above s (es ++ (fs ++ [])) u := by
    rw [List.append_nil]
    exact hcourse.trans h.1
  cases o with
  | complete => exact .pure hdone
  | incomplete => exact .pure hdone
  | noMatch =>
    obtain ⟨rfl, rfl⟩ := h.2 rfl
    have hmissing : (raiseMissingValue s.token.span).Ensures u fun _ gs v =>
        Course depth above s (es ++ gs) v := by
      refine Ensures.isAt_bind (fun _ => ?_) fun _ => ?_
      · exact (Follows.raiseExpected _ H).mono fun _ _ _ _ hgs => hcourse.trans hgs
      · obtain ⟨v, hv, hprevious⟩ := hprevious
        have hspan : u.previousSpan = v.span := by rw [State.previousSpan, hprevious]; rfl
        refine .view_bind (.of_runs .raise ?_)
        rw [hspan, Rule.raise, List.append_nil]
        exact .blame hcourse hpending hraised hv
    refine hmissing.bind fun _ gs v hr' hgs => (hnext (hr'.wf H)).mono fun _ _ _ _ hhs => ?_
    rw [List.nil_append, ← List.append_assoc]
    exact hgs.trans hhs

/-- An assignment and its value, or the error that one of them is missing. -/
theorem follows_assignment (hvalue : value.Follows depth above) {assign : Rule Bool}
    {expected : List TokenKind} {s t : State} {es : List Element} {next : Rule Bool} (H : t.WF)
    (hcourse : Course depth above s es t) (hpending : s.pending = []) (hraised : t.raised = s.raised)
    (hassign : assign.Follows depth above)
    (hquiet : assign.Ensures t fun ok es u => u.raised = t.raised ∧
      (ok = true → ∃ v ∈ leavesAll es, u.previous = some v.span))
    (hnext : next.Follows depth above) :
    (do
      if ← assign then
        match ← value with
        | .complete _ => return true
        | .incomplete _ => return false
        | .noMatch =>
          raiseMissingValue s.token.span
          next
      else
        raiseExpected expected
        next : Rule Bool).Ensures t fun _ fs u => Course depth above s (es ++ fs) u := by
  refine ((hassign H).and hquiet).bind fun ok fs u hr hfs => ?_
  obtain ⟨hfs, hraised', hprevious⟩ := hfs
  refine .ite (fun hok => ?_) fun _ => ?_
  · obtain ⟨v, hv, hspan⟩ := hprevious hok
    have hv' : v ∈ leavesAll (es ++ fs) := by
      rw [leavesAll_append]
      exact List.mem_append_right _ hv
    refine (follows_assigned hyields hvalue (hr.wf H) (hcourse.trans hfs) hpending
      (hraised'.trans hraised) ⟨v, hv', hspan⟩ hnext).mono fun _ _ _ _ hgs => ?_
    rwa [List.append_assoc] at hgs
  · refine ((Follows.raiseExpected _).bind fun _ => hnext) (hr.wf H) |>.mono fun _ _ _ _ hgs => ?_
    exact hcourse.trans (hfs.trans hgs)

theorem follows_pair {above : List NodeKind} (hpath : Path depth (.pair :: above))
    (hvalue : value.Follows depth (.pair :: above)) : (pair limits value).Follows depth above := by
  have herror : Path depth (.error :: .pair :: above) := hpath.child (by decide) rfl
  have hname : Path depth (.fieldName :: .pair :: above) := hpath.child (by decide) rfl
  have hskip : Follows depth (.pair :: above) (do
      let _ ← skipPair limits
      return false) := (follows_skipUntil limits herror _).bind fun _ => .pure
  intro s H
  refine Ensures.isAt_bind (fun _ => .view_bind ?_) fun _ => .pure (.refl s)
  refine Ensures.nodeOutcome (Ensures.mono ?_ fun _ _ _ _ hes => .node hpath hes)
  -- the name, which raises nothing
  have hbump : (node .fieldName bump).Ensures s.opened fun _ es t =>
      Course depth (.pair :: above) s.opened es t ∧ t.raised = s.opened.raised :=
    (Follows.bump.node hname H.opened).and (.node (.of_runs .bump (Quiet.bump _)))
  refine hbump.bind fun _ es t hr hes => ?_
  have Ht := hr.wf H.opened
  exact follows_assignment hyields hvalue Ht hes.1 rfl hes.2 (.eat _) (eat_quiet Ht (by simp)) hskip

theorem follows_membersLoop {above : List NodeKind} (hpath : Path depth (.members :: above))
    (hvalue : value.Follows depth (.pair :: .members :: above)) (budget : Nat) (found : Bool) :
    (membersLoop limits value budget found).Follows depth (.members :: above) := by
  have herror : Path depth (.error :: .members :: above) := hpath.child (by decide) rfl
  have hpair : Path depth (.pair :: .members :: above) := hpath.child (by decide) rfl
  induction budget generalizing found with
  | zero => exact (Follows.raiseHere _).bind fun _ => .pure
  | succ budget ih =>
    refine Follows.view.bind fun _ => ?_
    split
    · exact .pure
    · exact .pure
    · refine (follows_pair limits hyields hpair hvalue).bind fun _ => Follows.view.bind fun _ => ?_
      split
      · exact Follows.bump.bind fun _ => (ih _).bind fun _ => .pure
      · exact .pure
      · exact .pure
      · exact follows_recover limits herror ((ih _).bind fun _ => .pure)
    · exact follows_recover limits herror ((ih _).bind fun _ => .pure)

theorem follows_body {above : List NodeKind} (hpath : Path depth (.members :: above))
    (hvalue : value.Follows depth (.pair :: .members :: above)) :
    (body limits value).Follows depth above := by
  have hmembers : (members limits value).Follows depth above :=
    .nodeOutcome hpath (follows_membersLoop limits hyields hpath hvalue _ _)
  refine (Follows.expect _).bind fun _ => .ite ?_ .pure
  exact hmembers.succeeds.unlessAt.bind fun _ => (Follows.expect _).bind fun _ => .pure

end

/-! ### Values -/

/-- What a level needs of the rule for values below it. -/
def Values (limits : Limits) (above : List NodeKind) (r : Rule Outcome) : Prop :=
  YieldsValue r ∧ (Path limits.maxDepth (.value :: above) → r.Follows limits.maxDepth above)

/-- What a level needs of the rule for references below it. -/
def Links (limits : Limits) (above : List NodeKind) (links : Nat → Rule Bool) : Prop :=
  Path limits.maxDepth (.variableRefExpr :: above) →
    ∀ budget, (links budget).Follows limits.maxDepth (.variableRefExpr :: above)

section
variable {limits} {inner : Option Inner}
  (hinner : Inner.Satisfies limits (Values limits) (Links limits) inner room)
include hinner

theorem follows_object (hpath : Path limits.maxDepth (.value :: above))
    (hroom : levels above + room = limits.maxDepth) :
    (object limits inner).Follows limits.maxDepth (.value :: above) := by
  refine Follows.view.bind fun _ => .ite ?_ .pure
  cases hinner with
  | none => exact follows_tooDeep limits (hpath.child (by decide) rfl)
  | @some rules room hvalue _ =>
    have hroom' : levels (.object :: .value :: above) + room = limits.maxDepth :=
      levels_cons_add rfl hroom
    have hobject := hpath.child_of_room (by decide) hroom'
    have hmembers : Path limits.maxDepth (.members :: .object :: .value :: above) :=
      hobject.child (by decide) rfl
    have hpair : Path limits.maxDepth (.pair :: .members :: .object :: .value :: above) :=
      hmembers.child (by decide) rfl
    obtain ⟨hyields, hfollows⟩ := hvalue (.pair :: .members :: .object :: .value :: above)
      (by simp) hroom'
    exact .nodeOutcome hobject (follows_body limits hyields hmembers
      (hfollows (hpair.child (by decide) rfl)))

theorem follows_operand (hpath : Path limits.maxDepth (.value :: above))
    (hroom : levels above + room = limits.maxDepth) :
    (operand limits inner).Follows limits.maxDepth (.value :: above) := by
  have hstring : Path limits.maxDepth (.stringExpr :: .value :: above) :=
    hpath.child (by decide) rfl
  have harray : Path limits.maxDepth (.arrayExpr :: .value :: above) := hpath.child (by decide) rfl
  refine Follows.view.bind fun _ => ?_
  split
  · exact (follows_stringExpr limits hstring).succeeds
  · exact (follows_arrayExpr limits harray (hinner.isSome_iff hroom).1).succeeds
  · exact (follows_object hinner hpath hroom).succeeds
  · exact Follows.bump.bind fun _ => .pure

theorem follows_links (hroom : levels (.variableRefExpr :: above) + room = limits.maxDepth) :
    Links limits above (links limits inner) := by
  intro hpath budget
  have herror : Path limits.maxDepth (.error :: .variableRefExpr :: above) :=
    hpath.child (by decide) rfl
  have htail : Path limits.maxDepth (.value :: .variableRefExpr :: above) :=
    hpath.child (by decide) rfl
  cases budget with
  | zero => exact (Follows.raiseHere _).bind fun _ => .pure
  | succ budget =>
    refine Follows.bump.bind fun _ => Follows.view.bind fun _ => .ite ?_ .pure
    refine Follows.bump.bind fun _ => Follows.view.bind fun _ => .ite ?_ ?_
    · cases hinner with
      | none =>
        refine (Follows.raiseHere _).bind fun _ => ?_
        exact Follows.bind (((follows_bumpChain limits _).node herror).bind fun _ => .pure)
          fun _ => .pure
      | @some rules room _ hlinks =>
        have hroom' : levels (.variableRefExpr :: .value :: .variableRefExpr :: above) + room =
            limits.maxDepth := levels_cons_add rfl hroom
        have hlink : Path limits.maxDepth (.variableRefExpr :: .value :: .variableRefExpr :: above) :=
          htail.child_of_room (by decide) hroom'
        exact (((hlinks _ hroom' hlink budget).node hlink).node htail).bind fun _ => .pure
    · exact ((follows_operand hinner htail hroom).node htail).bind fun _ => .pure

theorem follows_value (habove : above.head? ≠ some .variableRefExpr)
    (hroom : levels above + room = limits.maxDepth) :
    Values limits above (value limits inner) := by
  refine ⟨yields_value limits inner, fun hpath => ?_⟩
  have hroom' : levels (.variableRefExpr :: .value :: above) + room = limits.maxDepth := by
    rw [levels_variableRefExpr habove, hroom]
  have href : Path limits.maxDepth (.variableRefExpr :: .value :: above) :=
    hpath.child_of_room (by decide) hroom'
  refine Follows.view.bind fun _ => .ite (.nodeOutcome hpath ?_) .pure
  refine Follows.view.bind fun _ => .ite (Follows.succeeds ?_) (follows_operand hinner hpath hroom)
  refine Follows.view.bind fun _ => .ite (.nodeOutcome href ?_) .pure
  exact follows_links hinner hroom' href _

end

/-- Every value follows a course where it may stand. -/
theorem follows_value_innerAt (habove : above.head? ≠ some .variableRefExpr)
    (hroom : levels above + room = limits.maxDepth) :
    Values limits above (value limits (innerAt limits room)) :=
  follows_value (Inner.satisfies_innerAt follows_value follows_links room) habove hroom

/-! ### Files -/

theorem path_file : Path depth [.file] := ⟨.singleton _, Nat.zero_le _⟩

theorem follows_blueprint : (blueprint limits limits.maxDepth).Follows limits.maxDepth [.file] := by
  have hpath : Path limits.maxDepth [.blueprint, .file] := path_file.child (by decide) rfl
  have hmembers : Path limits.maxDepth [.members, .blueprint, .file] := hpath.child (by decide) rfl
  have hpair : Path limits.maxDepth [.pair, .members, .blueprint, .file] :=
    hmembers.child (by decide) rfl
  obtain ⟨hyields, hvalue⟩ : Values limits [.pair, .members, .blueprint, .file]
      (value limits (innerAt limits limits.maxDepth)) :=
    follows_value_innerAt limits (by simp) (Nat.zero_add _)
  refine Follows.view.bind fun _ => .ite (.nodeOutcome hpath ?_) .pure
  refine (Follows.bump.node (hpath.child (by decide) rfl)).bind fun _ => ?_
  exact follows_body limits hyields hmembers (hvalue (hpair.child (by decide) rfl))

theorem follows_variableDef :
    (variableDef limits limits.maxDepth).Follows limits.maxDepth [.file] := by
  have hpath : Path limits.maxDepth [.variable, .file] := path_file.child (by decide) rfl
  obtain ⟨hyields, hvalue⟩ : Values limits [.variable, .file]
      (value limits (innerAt limits limits.maxDepth)) :=
    follows_value_innerAt limits (by simp) (Nat.zero_add _)
  intro s H
  refine Ensures.isAt_bind (fun _ => .view_bind ?_) fun _ => .pure (.refl s)
  refine Ensures.nodeOutcome (Ensures.mono ?_ fun _ _ _ _ hes => .node hpath hes)
  have hbump : bump.Ensures s.opened fun _ es t =>
      Course limits.maxDepth [.variable, .file] s.opened es t ∧ t.raised = s.opened.raised :=
    (Follows.bump H.opened).and (.of_runs .bump (Quiet.bump _))
  refine hbump.bind fun _ es t hr hes => ?_
  have Ht := hr.wf H.opened
  exact follows_assignment hyields (hvalue (hpath.child (by decide) rfl)) Ht hes.1 rfl hes.2
    .eatAssignment (eatAssignment_quiet Ht) .pure

theorem follows_itemOrSkip :
    (itemOrSkip limits limits.maxDepth).Follows limits.maxDepth [.file] := by
  have hitem : (item limits limits.maxDepth).Follows limits.maxDepth [.file] := by
    refine Follows.view.bind fun _ => ?_
    split
    · exact follows_blueprint limits
    · exact follows_variableDef limits
    · exact .pure
  exact hitem.bind fun _ => .ite .pure (follows_recover limits (path_file.child (by decide) rfl) .pure)

theorem follows_items (budget : Nat) :
    (items limits limits.maxDepth budget).Follows limits.maxDepth [.file] := by
  have herror : Path limits.maxDepth [.error, .file] := path_file.child (by decide) rfl
  have hforce (before : Nat) : (forceProgress before).Follows limits.maxDepth [.file] :=
    Follows.view.bind fun _ => .ite ((Follows.raiseHere _).bind fun _ =>
      (Follows.bump.node herror).bind fun _ => .pure) .pure
  induction budget with
  | zero => exact Follows.view.bind fun _ => .ite .pure (.raiseHere _)
  | succ budget ih =>
    refine Follows.view.bind fun _ => .ite .pure (Follows.view.bind fun _ => ?_)
    exact (follows_itemOrSkip limits).bind fun _ => (hforce _).bind fun _ => ih

/-- Everything in a file but its end is put down along a course. -/
theorem follows_contents : Follows limits.maxDepth [.file]
    (contents limits limits.maxDepth limits.maxIterations) := by
  have hbumpAll (ts : List Token) : (bumpAll ts).Follows limits.maxDepth [.error, .file] := by
    induction ts with
    | nil => exact .pure
    | cons t ts ih => exact Follows.bump.bind fun _ => ih
  refine (follows_items limits _).bind fun _ => Follows.view.bind fun _ => .ite .pure ?_
  refine Follows.view.bind fun _ => ?_
  exact ((hbumpAll _).node (path_file.child (by decide) rfl)).bind fun _ => .pure

end Rule

end Blueprint
