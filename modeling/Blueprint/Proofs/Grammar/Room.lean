import Blueprint.Proofs.Grammar.Deepens

/-!
# More room

Every rule of the grammar deepens when the depth limit is raised (`Rule.deepens_contents`). A rule
that can raise an error about depth in front of its first token is only used behind a token that was
consumed: an assignment, a `+` or the name of a reference. So a text without such an error has the
same tree and the same errors under every higher limit (`parse_withMaxDepth`).
-/

namespace Blueprint

open Element

namespace Rule

variable {α : Type} {ts : List Token} {s : State} (limits : Limits) {depth : Nat}

/-! ### Strings and arrays -/

theorem deepens_skipUntil (stop : State → Bool) :
    Deepens ts (skipUntil limits stop) (skipUntil (limits.withMaxDepth depth) stop) :=
  .quiet (Runs.inherited.skipUntil limits stop) (Quiet.kept.skipUntil limits stop)

/-- Where no level is left an error about depth is raised, so any other rule will do. -/
theorem deepens_tooDeep {r : Rule Outcome} : DeepensBehind ts (tooDeep limits) r :=
  fun _ H hfresh => .deep H hfresh (fun _ => (Runs.inherited.skipGroup limits).bind fun _ => .pure)
    fun _ => (Quiet.kept.skipGroup limits).bind fun _ => .pure

theorem deepens_stringTail (budget : Nat) : Deepens ts (stringTail budget) (stringTail budget) := by
  induction budget with
  | zero => exact .view_bind fun _ => .ite (.raiseHere (by simp)) .pure
  | succ budget ih =>
    apply Deepens.view_bind
    exact fun _ => .ite (Deepens.bump.bind fun _ => Deepens.bump.bind fun _ => ih) .pure

theorem deepens_stringExpr :
    Deepens ts (stringExpr limits) (stringExpr (limits.withMaxDepth depth)) :=
  .view_bind fun _ => .ite (.nodeOutcome (Deepens.bump.bind fun _ =>
    (deepens_stringTail limits.maxIterations).bind fun _ => .pure)) .pure

theorem deepens_elementsLoop (budget : Nat) :
    Deepens ts (elementsLoop limits budget) (elementsLoop (limits.withMaxDepth depth) budget) := by
  have helement : Deepens ts arrayElement arrayElement :=
    .view_bind fun _ => .ite (.nodeOutcome (Deepens.bump.bind fun _ => .pure)) .pure
  have hskip (expected : List TokenKind) : Deepens ts
      (do raiseExpected expected; let _ ← skipElements limits; return false : Rule Bool)
      (do raiseExpected expected; let _ ← skipElements (limits.withMaxDepth depth); return false) :=
    .recover (Runs.inherited.skipUntil limits _) (Quiet.kept.skipUntil limits _) fun _ => .pure
  induction budget with
  | zero => exact (Deepens.raiseHere (by simp)).bind fun _ => .pure
  | succ budget ih =>
    apply helement.bind
    intro o
    apply Deepens.ite (hskip _)
    apply Deepens.view_bind
    intro k
    cases k with
    | separator => exact Deepens.bump.bind fun _ => .view_bind fun _ => .ite .pure ih
    | arrayEnd => exact .pure
    | eof => exact .pure
    | _ => exact hskip _

theorem deepens_array {more more' : Bool} (hmore : more = true → more' = true) :
    DeepensBehind ts (array limits more) (array (limits.withMaxDepth depth) more') := by
  intro s H hfresh
  refine .view_bind (.ite (fun _ => .pure H) fun _ => ?_)
  cases more with
  | false => exact deepens_tooDeep limits H hfresh
  | true =>
    rw [hmore rfl]
    have helements : Deepens ts (elements limits) (elements (limits.withMaxDepth depth)) :=
      .nodeOutcome (deepens_elementsLoop limits limits.maxIterations)
    refine Deepens.nodeOutcome ?_ H
    exact Deepens.bump.bind fun _ => helements.succeeds.unlessAt.bind fun _ =>
      (Deepens.expect _).bind fun _ => .pure

theorem deepens_arrayTail {more more' : Bool} (hmore : more = true → more' = true) (budget : Nat) :
    Deepens ts (arrayTail limits more budget)
      (arrayTail (limits.withMaxDepth depth) more' budget) := by
  induction budget with
  | zero => exact .view_bind fun _ => .ite ((Deepens.raiseHere (by simp)).bind fun _ => .pure) .pure
  | succ budget ih =>
    intro s H
    refine .view_bind (.ite (fun hc => ?_) fun _ => .pure H)
    have hplus : s.current ≠ .eof := fun hs => by simp [hs] at hc
    exact .bump_bind H hplus fun _ => (deepens_array limits hmore).bind fun _ =>
      ih.bind fun _ => .pure

theorem deepens_arrayExpr {more more' : Bool} (hmore : more = true → more' = true) :
    DeepensBehind ts (arrayExpr limits more) (arrayExpr (limits.withMaxDepth depth) more') := by
  intro s H hfresh
  refine .view_bind (.ite (fun _ => ?_) fun _ => .pure H)
  refine DeepensBehind.nodeOutcome ?_ H hfresh
  exact (deepens_array limits hmore).bind fun _ =>
    (deepens_arrayTail limits hmore limits.maxIterations).bind fun _ => .pure

/-! ### Pairs -/

theorem deepens_raiseMissingValue (H : s.Candid ts) {start : Span}
    (hstart : start.start ≤ s.token.span.start) :
    (raiseMissingValue start).DeepensAt ts (raiseMissingValue start) s := by
  refine .view_bind (.ite (fun _ => Deepens.raiseExpected _ H) fun _ => .view_bind ?_)
  exact .raise H (Nat.le_trans (Nat.min_le_left _ _) hstart) (by simp)

/-- What stands after an assignment: a value, or the error that there is none. -/
theorem deepens_assigned {value value' : Rule Outcome} {next next' : Rule Bool} {start : Span}
    (H : s.Candid ts) (hfresh : s.Fresh) (hstart : start.start ≤ s.token.span.start)
    (hvalue : DeepensBehind ts value value') (hnext : Deepens ts next next') :
    (do
      match ← value with
      | .complete _ => return true
      | .incomplete _ => return false
      | .noMatch =>
        raiseMissingValue start
        next : Rule Bool).DeepensAt ts (do
      match ← value' with
      | .complete _ => return true
      | .incomplete _ => return false
      | .noMatch =>
        raiseMissingValue start
        next') s := by
  refine (hvalue H hfresh).bind_run fun o _ t hr Ht => ?_
  cases o with
  | complete => exact .pure Ht
  | incomplete => exact .pure Ht
  | noMatch =>
    have hmissing := deepens_raiseMissingValue Ht (Nat.le_trans hstart (H.start_le hr))
    exact hmissing.bind_run fun _ _ _ _ Hu => hnext Hu

/-- An assignment that was read is behind a token. -/
theorem eat_fresh (H : s.Candid ts) {kind : TokenKind} (hkind : kind ≠ .eof) :
    (eat kind).Ensures s fun ok _ t => ok = true → t.Fresh := by
  refine Ensures.isAt_bind (fun hc => ?_) fun _ => .pure nofun
  exact .bind_pure ((bump_fresh H (hc ▸ hkind)).mono fun _ _ _ _ ht _ => ht)

theorem eatAssignment_fresh (H : s.Candid ts) :
    eatAssignment.Ensures s fun ok _ t => ok = true → t.Fresh := by
  refine ((eat_fresh H (by simp)).and (Deepens.eat _ H).ensures).bind fun ok _ t _ ht => ?_
  exact .ite (fun hok => .pure fun _ => ht.1 hok) fun _ => eat_fresh ht.2 (by simp)

section
variable {value value' : Rule Outcome} (hvalue : DeepensBehind ts value value')
include hvalue

theorem deepens_pair :
    Deepens ts (pair limits value) (pair (limits.withMaxDepth depth) value') := by
  have hskip : Deepens ts (do let _ ← skipPair limits; return false : Rule Bool)
      (do let _ ← skipPair (limits.withMaxDepth depth); return false) :=
    (deepens_skipUntil limits _).bind fun _ => .pure
  have hname : Deepens ts (node .fieldName bump) (node .fieldName bump) := Deepens.bump.node
  intro s H
  refine .view_bind (.ite (fun _ => .view_bind ?_) fun _ => .pure H)
  refine .nodeOutcome ((hname H.opened).bind_run fun _ _ t hr Ht => ?_)
  refine (Deepens.eat .equals Ht).bind (eat_fresh Ht (by simp)) fun ok _ u hr' Hu hfresh => ?_
  refine .ite (fun hok => ?_) fun _ => ((Deepens.raiseExpected _).bind fun _ => hskip) Hu
  exact deepens_assigned Hu (hfresh hok) (H.opened.start_le (hr.trans hr')) hvalue hskip

theorem deepens_membersLoop (budget : Nat) (found : Bool) :
    Deepens ts (membersLoop limits value budget found)
      (membersLoop (limits.withMaxDepth depth) value' budget found) := by
  induction budget generalizing found with
  | zero => exact (Deepens.raiseHere (by simp)).bind fun _ => .pure
  | succ budget ih =>
    have hskip (found : Bool) (expected : List TokenKind) : Deepens ts
        (do
          raiseExpected expected
          let _ ← skipMembers limits
          let _ ← membersLoop limits value budget found
          return false : Rule Bool)
        (do
          raiseExpected expected
          let _ ← skipMembers (limits.withMaxDepth depth)
          let _ ← membersLoop (limits.withMaxDepth depth) value' budget found
          return false) :=
      .recover (Runs.inherited.skipUntil limits _) (Quiet.kept.skipUntil limits _) fun _ =>
        (ih found).bind fun _ => .pure
    apply Deepens.view_bind
    intro k
    cases k with
    | objectEnd => exact .pure
    | eof => exact .pure
    | fieldName =>
      apply (deepens_pair limits hvalue).bind
      intro o
      apply Deepens.view_bind
      intro k
      cases k with
      | separator => exact Deepens.bump.bind fun _ => (ih true).bind fun _ => .pure
      | objectEnd => exact .pure
      | eof => exact .pure
      | _ => exact hskip true _
    | _ => exact hskip found _

theorem deepens_body :
    Deepens ts (body limits value) (body (limits.withMaxDepth depth) value') := by
  have hmembers : Deepens ts (members limits value)
      (members (limits.withMaxDepth depth) value') :=
    .nodeOutcome (deepens_membersLoop limits hvalue limits.maxIterations false)
  exact (Deepens.expect _).bind fun _ => .ite (hmembers.succeeds.unlessAt.bind fun _ =>
    (Deepens.expect _).bind fun _ => .pure) .pure

end

end Rule

/-- The rules of the next level deepen. Where there are none, any others will do. -/
inductive Inner.Deepens (ts : List Token) : Option Inner → Option Inner → Prop
  | none {inner : Option Inner} : Inner.Deepens ts none inner
  | some {rules rules' : Inner} : Rule.DeepensBehind ts rules.value rules'.value →
    (∀ budget, Rule.Deepens ts (rules.links budget) (rules'.links budget)) →
    Inner.Deepens ts (some rules) (some rules')

theorem Inner.Deepens.isSome {ts : List Token} {inner inner' : Option Inner}
    (H : Inner.Deepens ts inner inner') (h : inner.isSome = true) : inner'.isSome = true := by
  cases H with
  | none => cases h
  | some => rfl

namespace Rule

variable {ts : List Token} (limits : Limits) {depth : Nat}

section
variable {inner inner' : Option Inner} (hinner : Inner.Deepens ts inner inner')
include hinner

/-! ### Values -/

theorem deepens_object :
    DeepensBehind ts (object limits inner) (object (limits.withMaxDepth depth) inner') := by
  intro s H hfresh
  refine .view_bind (.ite (fun _ => ?_) fun _ => .pure H)
  cases hinner with
  | none => exact deepens_tooDeep limits H hfresh
  | some hvalue _ => exact Deepens.nodeOutcome (deepens_body limits hvalue) H

theorem deepens_operand :
    DeepensBehind ts (operand limits inner) (operand (limits.withMaxDepth depth) inner') := by
  intro s H hfresh
  apply DeepensAt.view_bind
  generalize s.current = k
  cases k with
  | string => exact (deepens_stringExpr limits).succeeds H
  | arrayStart => exact (deepens_arrayExpr limits hinner.isSome).succeeds H hfresh
  | objectStart => exact (deepens_object limits hinner).succeeds H hfresh
  | _ => exact (Deepens.bump.bind fun _ => .pure) H

theorem deepens_links (budget : Nat) :
    Deepens ts (links limits inner budget) (links (limits.withMaxDepth depth) inner' budget) := by
  cases budget with
  | zero => exact (Deepens.raiseHere (by simp)).bind fun _ => .pure
  | succ budget =>
    apply Deepens.bump.bind
    intro _ s H
    refine .view_bind (.ite (fun hc => ?_) fun _ => .pure H)
    have hplus : s.current ≠ .eof := fun hs => by simp [State.atTail, hs] at hc
    apply DeepensAt.bump_bind H hplus
    intro _ t Ht hfresh
    refine .view_bind (.ite (fun _ => ?_) fun _ => ?_)
    · cases hinner with
      | none =>
        exact .deep Ht hfresh (fun _ => (Runs.inherited.skipChain limits).bind fun _ => .pure)
          fun _ => (Quiet.kept.skipChain limits).bind fun _ => .pure
      | some _ hlinks => exact ((hlinks budget).node.node.bind fun _ => .pure) Ht
    · exact ((deepens_operand limits hinner).node.bind fun _ => .pure) Ht hfresh

theorem deepens_variableRefExpr :
    Deepens ts (variableRefExpr limits inner)
      (variableRefExpr (limits.withMaxDepth depth) inner') := by
  have hlinks : Deepens ts (links limits inner limits.maxIterations)
      (links (limits.withMaxDepth depth) inner' limits.maxIterations) :=
    deepens_links limits hinner limits.maxIterations
  apply Deepens.view_bind
  intro b
  exact .ite (.nodeOutcome hlinks) .pure

theorem deepens_value :
    DeepensBehind ts (value limits inner) (value (limits.withMaxDepth depth) inner') := by
  intro s H hfresh
  refine .view_bind (.ite (fun _ => ?_) fun _ => .pure H)
  refine .nodeOutcome (.view_bind (.ite (fun _ => ?_) fun _ => ?_))
  · exact (deepens_variableRefExpr limits hinner).succeeds H.opened
  · exact deepens_operand limits hinner H.opened hfresh

end

theorem deepens_innerAt {room room' : Nat} (hle : room ≤ room') :
    Inner.Deepens ts (innerAt limits room) (innerAt (limits.withMaxDepth depth) room') := by
  induction room generalizing room' with
  | zero => exact .none
  | succ room ih =>
    obtain ⟨room', rfl⟩ := Nat.exists_eq_add_of_lt (Nat.lt_of_lt_of_le (Nat.succ_pos room) hle)
    rw [Nat.zero_add]
    have hinner := @ih room' (by omega)
    exact .some (deepens_value limits hinner) (deepens_links limits hinner)

/-! ### Files -/

section
variable {room room' : Nat} (hle : room ≤ room')
include hle

theorem deepens_value_innerAt :
    DeepensBehind ts (value limits (innerAt limits room))
      (value (limits.withMaxDepth depth) (innerAt (limits.withMaxDepth depth) room')) :=
  deepens_value limits (deepens_innerAt limits hle)

theorem deepens_blueprint :
    Deepens ts (blueprint limits room) (blueprint (limits.withMaxDepth depth) room') :=
  .view_bind fun _ => .ite (.nodeOutcome (Deepens.bump.node.bind fun _ =>
    deepens_body limits (deepens_value_innerAt limits hle))) .pure

theorem deepens_variableDef :
    Deepens ts (variableDef limits room) (variableDef (limits.withMaxDepth depth) room') := by
  intro s H
  refine .view_bind (.ite (fun _ => .view_bind ?_) fun _ => .pure H)
  refine .nodeOutcome ((Deepens.bump H.opened).bind_run fun _ _ t hr Ht => ?_)
  refine (Deepens.quiet Runs.inherited.eatAssignment Quiet.kept.eatAssignment Ht).bind
    (eatAssignment_fresh Ht) fun ok _ u hr' Hu hfresh => ?_
  refine .ite (fun hok => ?_) fun _ => ((Deepens.raiseExpected _).bind fun _ => .pure) Hu
  exact deepens_assigned Hu (hfresh hok) (H.opened.start_le (hr.trans hr'))
    (deepens_value_innerAt limits hle) .pure

theorem deepens_itemOrSkip :
    Deepens ts (itemOrSkip limits room) (itemOrSkip (limits.withMaxDepth depth) room') := by
  have hitem : Deepens ts (item limits room) (item (limits.withMaxDepth depth) room') := by
    apply Deepens.view_bind
    intro k
    cases k with
    | blueprintTypeName => exact deepens_blueprint limits hle
    | variableName => exact deepens_variableDef limits hle
    | _ => exact .pure
  apply hitem.bind
  intro o
  apply Deepens.ite .pure
  exact .recover (Runs.inherited.skipUntil limits _) (Quiet.kept.skipUntil limits _) fun _ => .pure

theorem deepens_items (budget : Nat) :
    Deepens ts (items limits room budget) (items (limits.withMaxDepth depth) room' budget) := by
  have hforce (before : Nat) : Deepens ts (forceProgress before) (forceProgress before) :=
    .view_bind fun _ => .ite ((Deepens.raiseHere (by simp)).bind fun _ =>
      Deepens.bump.node.bind fun _ => .pure) .pure
  induction budget with
  | zero => exact .view_bind fun _ => .ite .pure (.raiseHere (by simp))
  | succ budget ih =>
    exact .view_bind fun _ => .ite .pure <| .view_bind fun before =>
      (deepens_itemOrSkip limits hle).bind fun _ => (hforce before).bind fun _ => ih

/-- The children of a file deepen, but for the end of the file. -/
theorem deepens_contents (budget : Nat) :
    Deepens ts (contents limits room budget) (contents (limits.withMaxDepth depth) room' budget) :=
  (deepens_items limits hle budget).bind fun _ => .quiet Runs.inherited.leftover Quiet.kept.leftover

end

end Rule

/-- A text has nothing wrong before it is read. -/
theorem State.candid_start (source : String) : (State.start source).Candid (tokenize source) :=
  ⟨⟨.first, State.stands_start source⟩, fun _ h => absurd h List.not_mem_nil,
    fun _ h => absurd h List.not_mem_nil⟩

/-- Without an error about depth, the tree and the errors of a text are the same under every higher
depth limit. -/
theorem parse_withMaxDepth (source : String) (limits : Limits) {depth : Nat}
    (hle : limits.maxDepth ≤ depth)
    (h : ∀ e ∈ (parse source limits).errors, ∀ limit, e.problem ≠ .nestingTooDeep limit) :
    parse source (limits.withMaxDepth depth) = parse source limits := by
  let s := State.start source
  have hdeepens : Rule.DeepensAt (tokenize source)
      (Rule.contents limits limits.maxDepth limits.maxIterations)
      (Rule.contents (limits.withMaxDepth depth) depth limits.maxIterations) s :=
    Rule.deepens_contents limits hle limits.maxIterations (State.candid_start source)
  have hparse (limits : Limits) : parse source limits =
      (fun r : Reply Unit => (⟨⟨source, tokenize source, ⟨0, .file,
        r.state.nodeSpan r.emitted, r.emitted⟩⟩, r.state.errors⟩ : Parse))
          (Rule.fileBody limits limits.maxDepth s) := rfl
  have hshallow : (Rule.contents limits limits.maxDepth limits.maxIterations s).state.Shallow := by
    intro e he limit hlimit
    have hmem := hdeepens.candid.mem_recorded e he limit hlimit
    have herrors : e ∈ (parse source limits).errors := by
      rw [hparse, Rule.fileBody_apply]
      exact List.mem_reverse.2 hmem
    exact h e herrors limit hlimit
  have hbody : Rule.fileBody (limits.withMaxDepth depth) (limits.withMaxDepth depth).maxDepth s =
      Rule.fileBody limits limits.maxDepth s := by
    rw [Rule.fileBody_apply, Rule.fileBody_apply]
    exact congrArg (fun r : Reply Unit => (⟨(), r.emitted ++ (r.state.pending.map .token ++
      [.token r.state.eof]), { r.state with pending := [] }⟩ : Reply Unit))
      (hdeepens.reply_eq hshallow)
  rw [hparse, hparse, hbody]

/-- A tail that reaches down to the limit, and is an array that goes wrong. -/
theorem parse_withMaxDepth_broken :
    (∀ e ∈ (parse "m \x7b a: v + w + [1 b: \x7d" ⟨2, 9⟩).errors, ∀ limit,
        e.problem ≠ .nestingTooDeep limit) ∧
      parse "m \x7b a: v + w + [1 b: \x7d" ((⟨2, 9⟩ : Limits).withMaxDepth 5) =
        parse "m \x7b a: v + w + [1 b: \x7d" ⟨2, 9⟩ := by
  have hproblems : (parse "m \x7b a: v + w + [1 b: \x7d" ⟨2, 9⟩).errors.map SyntaxError.problem =
      [.unexpectedToken [.separator, .arrayEnd] .variableName,
        .unexpectedToken [.arrayEnd] .objectEnd] := by decide +kernel
  have h : ∀ e ∈ (parse "m \x7b a: v + w + [1 b: \x7d" ⟨2, 9⟩).errors, ∀ limit,
      e.problem ≠ .nestingTooDeep limit := by
    intro e he limit hlimit
    have hmem := List.mem_map_of_mem (f := SyntaxError.problem) he
    rw [hproblems, hlimit] at hmem
    simp at hmem
  exact ⟨h, parse_withMaxDepth "m \x7b a: v + w + [1 b: \x7d" ⟨2, 9⟩ (by decide) h⟩

end Blueprint
