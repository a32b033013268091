import Blueprint.Proofs.Grammar.Agrees
import Blueprint.Proofs.Grammar.Accepts

/-!
# Layout has no part in clean files

Every rule agrees with itself, and with itself when its loops may take more rounds. So texts whose
tokens differ in trivia only have the same tree but for trivia and places, if one of them has no
errors (`parse_layout`), and more rounds change nothing then (`parse_moreIterations`). Whether there
is whitespace in front of a token is looked at in one place, after an error.
-/

namespace Blueprint

open Element Token

namespace Rule

variable {limits limits' : Limits}

/-! ### Values -/

theorem agrees_expect (kind : TokenKind) : Agrees (expect kind) (expect kind) :=
  (Agrees.eat kind).bind fun _ => .ite .pure (.raises_bind (raises_raiseExpected _) .pure)

theorem agrees_stringTail {budget budget' : Nat} (h : budget ≤ budget') :
    Agrees (stringTail budget) (stringTail budget') := by
  induction budget generalizing budget' with
  | zero => cases budget' <;> exact .isAtTwo_bind fun _ => .ite (.raises (raises_raiseHere _)) .pure
  | succ budget ih =>
    cases budget' with
    | zero => cases h
    | succ budget' =>
      exact .isAtTwo_bind fun _ => .ite (Agrees.bump.bind fun _ => Agrees.bump.bind fun _ =>
        ih (Nat.le_of_succ_le_succ h)) .pure

theorem agrees_arrayElement : Agrees arrayElement arrayElement :=
  .isAtAny_bind fun _ => .ite (.nodeOutcome (Agrees.bump.bind fun _ => .pure)) .pure

theorem agrees_elementsLoop {budget budget' : Nat} (h : budget ≤ budget') :
    Agrees (elementsLoop limits budget) (elementsLoop limits' budget') := by
  induction budget generalizing budget' with
  | zero => exact .raises_bind (raises_raiseHere _) .pure
  | succ budget ih =>
    cases budget' with
    | zero => cases h
    | succ budget' =>
      refine agrees_arrayElement.bind fun _ => .ite ?_ (.current_bind fun kind => ?_)
      · exact .raises_bind (raises_raiseExpected _)
          ((Runs.inherited.skipUntil _ _).bind fun _ => .pure)
      · split
        · exact Agrees.bump.bind fun _ =>
            .isAt_bind fun _ => .ite .pure (ih (Nat.le_of_succ_le_succ h))
        · exact .pure
        · exact .pure
        · exact .raises_bind (raises_raiseExpected _)
            ((Runs.inherited.skipUntil _ _).bind fun _ => .pure)

/-- A construct past the depth limit is an error. -/
theorem agrees_tooDeep : Agrees (tooDeep limits) (tooDeep limits') :=
  .raises_bind (raises_raiseHere _) ((Runs.inherited.skipGroup _).bind fun _ => .pure)

section
variable (hle : limits.maxIterations ≤ limits'.maxIterations)
include hle

theorem agrees_stringExpr : Agrees (stringExpr limits) (stringExpr limits') :=
  .isAt_bind fun _ => .ite (.nodeOutcome (Agrees.bump.bind fun _ =>
    (agrees_stringTail hle).bind fun _ => .pure)) .pure

theorem agrees_arrayBody : Agrees (arrayBody limits) (arrayBody limits') :=
  Agrees.bump.bind fun _ =>
    (Agrees.nodeOutcome (agrees_elementsLoop hle)).succeeds.unlessAt.bind fun _ =>
    (agrees_expect _).bind fun _ => .pure

theorem agrees_array (room : Bool) : Agrees (array limits room) (array limits' room) :=
  .isAt_bind fun _ => .ite .pure (.ite (.nodeOutcome (agrees_arrayBody hle)) agrees_tooDeep)

theorem agrees_arrayTail (room : Bool) {budget budget' : Nat} (h : budget ≤ budget') :
    Agrees (arrayTail limits room budget) (arrayTail limits' room budget') := by
  induction budget generalizing budget' with
  | zero =>
    cases budget' <;>
      exact .isAtTwo_bind fun _ => .ite (.raises_bind (raises_raiseHere _) .pure) .pure
  | succ budget ih =>
    cases budget' with
    | zero => cases h
    | succ budget' =>
      exact .isAtTwo_bind fun _ => .ite (Agrees.bump.bind fun _ =>
        (agrees_array hle _).bind fun _ => (ih (Nat.le_of_succ_le_succ h)).bind fun _ => .pure) .pure

theorem agrees_arrayExpr (room : Bool) : Agrees (arrayExpr limits room) (arrayExpr limits' room) :=
  .isAt_bind fun _ => .ite (.nodeOutcome ((agrees_array hle _).bind fun _ =>
    (agrees_arrayTail hle _ hle).bind fun _ => .pure)) .pure

end

section
variable {value value' : Rule Outcome} (hvalue : Agrees value value')
include hvalue

/-- Where the pair starts counts for an error only. -/
theorem agrees_pair : Agrees (pair limits value) (pair limits' value') := by
  refine .isAt_bind fun _ => .ite (.view_bind_any fun _ _ => .nodeOutcome ?_) .pure
  refine Agrees.bump.node.bind fun _ => (Agrees.eat _).bind fun _ => .ite (hvalue.bind fun _ => ?_) ?_
  · split
    · exact .pure
    · exact .pure
    · exact .raises_bind (raises_raiseMissingValue _)
        ((Runs.inherited.skipUntil _ _).bind fun _ => .pure)
  · exact .raises_bind (raises_raiseExpected _) ((Runs.inherited.skipUntil _ _).bind fun _ => .pure)

theorem agrees_membersLoop {budget budget' : Nat} (h : budget ≤ budget') (found : Bool) :
    Agrees (membersLoop limits value budget found) (membersLoop limits' value' budget' found) := by
  have hskip : ∀ (budget : Nat) (found : Bool),
      (skipMembers limits >>= fun _ => membersLoop limits value budget found >>= fun _ =>
        (Pure.pure false : Rule Bool)).Runs := fun budget found =>
    (Runs.inherited.skipUntil _ _).bind fun _ =>
      (Runs.inherited.membersLoop limits hvalue.runs budget found).bind fun _ => .pure
  induction budget generalizing budget' found with
  | zero => exact .raises_bind (raises_raiseHere _) .pure
  | succ budget ih =>
    cases budget' with
    | zero => cases h
    | succ budget' =>
      refine .current_bind fun _ => ?_
      split
      · exact .pure
      · exact .pure
      · refine (agrees_pair hvalue).bind fun _ => .current_bind fun _ => ?_
        split
        · exact Agrees.bump.bind fun _ =>
            (ih (Nat.le_of_succ_le_succ h) _).bind fun _ => .pure
        · exact .pure
        · exact .pure
        · exact .raises_bind (raises_raiseExpected _) (hskip _ _)
      · exact .raises_bind (raises_raiseExpected _) (hskip _ _)

theorem agrees_body (hle : limits.maxIterations ≤ limits'.maxIterations) :
    Agrees (body limits value) (body limits' value') :=
  (agrees_expect _).bind fun _ =>
    .ite ((Agrees.nodeOutcome (agrees_membersLoop hvalue hle _)).succeeds.unlessAt.bind fun _ =>
      (agrees_expect _).bind fun _ => .pure) .pure

end

end Rule

/-- Rules of the next level that agree, with as many rounds at least in the second ones. -/
inductive Inner.Agrees : Option Inner → Option Inner → Prop
  | none : Inner.Agrees none none
  | some {rules rules' : Inner} : Rule.Agrees rules.value rules'.value →
    (∀ {budget budget' : Nat}, budget ≤ budget' →
      Rule.Agrees (rules.links budget) (rules'.links budget')) →
    Inner.Agrees (some rules) (some rules')

namespace Rule

variable {limits limits' : Limits} (hle : limits.maxIterations ≤ limits'.maxIterations)

section
variable {inner inner' : Option Inner} (hinner : Inner.Agrees inner inner')
include hle hinner

theorem agrees_object : Agrees (object limits inner) (object limits' inner') := by
  refine .isAt_bind fun _ => .ite ?_ .pure
  cases hinner with
  | none => exact agrees_tooDeep
  | some hvalue _ => exact .nodeOutcome (agrees_body hvalue hle)

theorem agrees_operand : Agrees (operand limits inner) (operand limits' inner') := by
  have hroom : inner.isSome = inner'.isSome := by cases hinner <;> rfl
  refine .current_bind fun _ => ?_
  split
  · exact (agrees_stringExpr hle).succeeds
  · rw [hroom]
    exact (agrees_arrayExpr hle _).succeeds
  · exact (agrees_object hle hinner).succeeds
  · exact Agrees.bump.bind fun _ => .pure

theorem agrees_links {budget budget' : Nat} (h : budget ≤ budget') :
    Agrees (links limits inner budget) (links limits' inner' budget') := by
  cases budget with
  | zero => exact .raises_bind (raises_raiseHere _) .pure
  | succ budget =>
    cases budget' with
    | zero => cases h
    | succ budget' =>
      refine Agrees.bump.bind fun _ => .view_bind Alike.atTail_eq fun _ =>
        .ite (Agrees.bump.bind fun _ => ?_) .pure
      refine .isAt_bind fun _ =>
        .ite ?_ ((agrees_operand hle hinner).node.bind fun _ => .pure)
      cases hinner with
      | none =>
        exact .raises_bind (raises_raiseHere _) ((Runs.inherited.skipChain _).bind fun _ => .pure)
      | some _ hlinks =>
        exact (hlinks (Nat.le_of_succ_le_succ h)).node.node.bind fun _ => .pure

theorem agrees_variableRefExpr :
    Agrees (variableRefExpr limits inner) (variableRefExpr limits' inner') :=
  .isAt_bind fun _ => .ite (.nodeOutcome (agrees_links hle hinner hle)) .pure

theorem agrees_value : Agrees (value limits inner) (value limits' inner') :=
  .isAtAny_bind fun _ => .ite (.nodeOutcome (.isAt_bind fun _ =>
    .ite (agrees_variableRefExpr hle hinner).succeeds (agrees_operand hle hinner))) .pure

end

include hle

theorem agrees_innerAt (room : Nat) : Inner.Agrees (innerAt limits room) (innerAt limits' room) := by
  induction room with
  | zero => exact .none
  | succ room ih => exact .some (agrees_value hle ih) fun h => agrees_links hle ih h

/-! ### Files -/

variable (room : Nat)

theorem agrees_blueprint : Agrees (blueprint limits room) (blueprint limits' room) :=
  .isAt_bind fun _ => .ite (.nodeOutcome (Agrees.bump.node.bind fun _ =>
    agrees_body (agrees_value hle (agrees_innerAt hle room)) hle)) .pure

theorem agrees_variableDef : Agrees (variableDef limits room) (variableDef limits' room) := by
  refine .isAt_bind fun _ => .ite (.view_bind_any fun _ _ => .nodeOutcome ?_) .pure
  have hassign : Agrees eatAssignment eatAssignment :=
    (Agrees.eat _).bind fun _ => .ite .pure (.eat _)
  refine Agrees.bump.bind fun _ => hassign.bind fun _ => .ite ?_
    (.raises_bind (raises_raiseExpected _) .pure)
  refine (agrees_value hle (agrees_innerAt hle room)).bind fun _ => ?_
  split
  · exact .pure
  · exact .pure
  · exact .raises_bind (raises_raiseMissingValue _) .pure

theorem agrees_item : Agrees (item limits room) (item limits' room) := by
  refine .current_bind fun _ => ?_
  split
  · exact agrees_blueprint hle room
  · exact agrees_variableDef hle room
  · exact .pure

theorem agrees_itemOrSkip : Agrees (itemOrSkip limits room) (itemOrSkip limits' room) :=
  (agrees_item hle room).bind fun _ => .ite .pure
    (.raises_bind (raises_raiseExpected _) ((Runs.inherited.skipUntil _ _).bind fun _ => .pure))

end Rule

/-- A run stays in its place just when it consumes nothing. -/
theorem Run.position_eq_iff {s t : State} {es : List Element} (hr : Run s es t) (H : s.WF) :
    t.position = s.position ↔ t.kinds.length = s.kinds.length := by
  constructor
  · intro h
    rw [State.kinds, hr.rest_eq_of_position H h, State.kinds]
  · intro h
    have hrest : t.rest = s.rest := by
      cases hs : s.rest with
      | nil => exact List.suffix_nil.1 (hs ▸ hr.rest_suffix)
      | cons u us =>
        refine (List.suffix_cons_iff.1 (hs ▸ hr.rest_suffix)).resolve_right fun hus => ?_
        have hlen : t.kinds.length ≤ (kindsOf us).length := ((hus.filter _).map _).length_le
        rw [h, H.kinds_eq_cons hs, List.length_cons] at hlen
        omega
    rw [State.position, State.position, State.token, State.token, hrest, hr.eof_eq]

namespace Rule

variable (limits : Limits) {limits' : Limits} (room : Nat)

theorem forceProgress_of_ne {before : Nat} {s : State} (h : s.position ≠ before) :
    forceProgress before s = ⟨(), [], s⟩ := by
  simp only [forceProgress, bind_apply, view_apply, beq_eq_false_iff_ne.2 h]
  rfl

theorem items_of_atEof {budget : Nat} {s : State} (h : s.atEof = true) :
    items limits room budget s = ⟨(), [], s⟩ := by
  cases budget <;> simp only [items, bind_apply, view_apply, h] <;> rfl

/-- An item that takes a token, and the items after it. -/
theorem items_succ {budget : Nat} {s : State} (hend : s.atEof = false)
    (hmoves : (itemOrSkip limits room s).state.position ≠ s.position) :
    items limits room (budget + 1) s =
      ⟨(), (itemOrSkip limits room s).emitted ++
          (items limits room budget (itemOrSkip limits room s).state).emitted,
        (items limits room budget (itemOrSkip limits room s).state).state⟩ := by
  simp only [items, bind_apply, view_apply, hend, Bool.false_eq_true, if_false,
    forceProgress_of_ne hmoves, List.nil_append]

theorem raised_forceProgress {before : Nat} {s : State} (h : s.position = before) :
    (forceProgress before s).state.raised ≠ s.raised := by
  have hrun : (do let _ ← node .error bump; return () : Rule Unit).Runs :=
    Runs.bump.node.bind fun _ => .pure
  intro hraised
  simp only [forceProgress, bind_apply, view_apply, h, beq_self_eq_true, if_true] at hraised
  exact absurd ((Runs.inherited.raiseHere _ s).raised_eq (hrun _) hraised).1 (List.cons_ne_self _ _)

/-- Progress never is forced without an error. -/
theorem agrees_forceProgress {r r' next next' : Rule Unit} (hr : Agrees r r')
    (hruns : r'.Runs) (hnext : Agrees next next') :
    Agrees (view State.position >>= fun before => r >>= fun _ => forceProgress before >>=
        fun _ => next)
      (view State.position >>= fun before => r' >>= fun _ => forceProgress before >>=
        fun _ => next') := by
  have hrest : ∀ before : Nat, (forceProgress before >>= fun _ => next).Runs := fun before =>
    (Runs.inherited.forceProgress before).bind fun _ => hnext.runs
  refine ⟨Runs.view.bind fun _ => hr.runs.bind fun _ => hrest _, fun {s s'} H hraised => ?_⟩
  obtain ⟨hst, htu⟩ := (hr.runs s).raised_eq (hrest s.position _) hraised
  have hsame := hr.same H hst
  have hmoves : (r s).state.position ≠ s.position := fun hp =>
    raised_forceProgress hp ((Runs.inherited.forceProgress _ _).raised_eq (hnext.runs _) htu).1
  have hmoves' : (r' s').state.position ≠ s'.position := by
    rw [Ne, (hr.runs s).position_eq_iff H.wf, H.kinds_eq, hsame.alike.kinds_eq] at hmoves
    rwa [Ne, (hruns s').position_eq_iff H.wf']
  have hagrees : Agrees (r >>= fun _ => next) (r' >>= fun _ => next') := hr.bind fun _ => hnext
  simp only [bind_apply, view_apply, forceProgress_of_ne hmoves, forceProgress_of_ne hmoves',
    List.nil_append] at hraised ⊢
  exact hagrees.same H hraised

theorem agrees_items (hle : limits.maxIterations ≤ limits'.maxIterations) {budget budget' : Nat}
    (h : budget ≤ budget') : Agrees (items limits room budget) (items limits' room budget') := by
  induction budget generalizing budget' with
  | zero =>
    cases budget' <;>
      exact .view_bind Alike.atEof_eq fun _ => .ite .pure (.raises (raises_raiseHere _))
  | succ budget ih =>
    cases budget' with
    | zero => cases h
    | succ budget' =>
      exact .view_bind Alike.atEof_eq fun _ => .ite .pure <|
        agrees_forceProgress (agrees_itemOrSkip hle room) (Runs.inherited.itemOrSkip limits' room)
          (ih (Nat.le_of_succ_le_succ h))

/-- The items are read to the end of the file unless there is an error. -/
theorem items_atEof (budget : Nat) (s : State) :
    (items limits room budget).Ensures s fun _ _ t => t.raised = s.raised → t.atEof = true := by
  induction budget generalizing s with
  | zero =>
    refine .view_bind <| .ite (fun h => .pure fun _ => h) fun _ => ?_
    exact .of_raises (raises_raiseHere _) fun e h => absurd h (List.cons_ne_self _ _)
  | succ budget ih =>
    refine .view_bind <| .ite (fun h => .pure fun _ => h) fun _ => .view_bind ?_
    have hitem : (itemOrSkip limits room).Ensures s fun _ _ _ => True :=
      .of_runs (Runs.inherited.itemOrSkip limits room) trivial
    refine hitem.bind fun _ es t hr _ => ?_
    have hforce : (forceProgress s.position).Ensures t fun _ _ _ => True :=
      .of_runs (Runs.inherited.forceProgress _) trivial
    refine hforce.bind fun _ fs u hr' _ => (ih u).mono fun _ gs v hr'' hv h => hv ?_
    exact ((hr.trans hr').raised_eq hr'' h).2

theorem leftover_of_atEof {s : State} (h : s.atEof = true) : leftover s = ⟨(), [], s⟩ := by
  simp only [leftover, bind_apply, view_apply, h]
  rfl

/-- Clean contents of a file are the same in states that are alike, also with more rounds. -/
theorem contents_same (hle : limits.maxIterations ≤ limits'.maxIterations) {budget budget' : Nat}
    (hbudget : budget ≤ budget') {s s' : State} (H : Alike s s')
    (h : (contents limits room budget s).state.raised = s.raised) :
    SameReply s s' (contents limits room budget s) (contents limits' room budget' s') := by
  have hruns : (items limits room budget).Runs := Runs.inherited.items limits room _
  have hclean := ((hruns s).raised_eq (Runs.inherited.leftover _) h).1
  have hsame := (agrees_items limits room hle hbudget).same H hclean
  have hend := items_atEof limits room budget s |>.2 hclean
  have hend' := hsame.alike.atEof_eq.symm.trans hend
  have hcontents (limits : Limits) (budget : Nat) (s : State)
      (hs : (items limits room budget s).state.atEof = true) :
      contents limits room budget s = items limits room budget s := by
    rw [contents, bind_apply, leftover_of_atEof hs, List.append_nil]
  rw [hcontents limits budget s hend, hcontents limits' budget' s' hend']
  exact hsame

theorem fileBody_more (hle : limits.maxIterations ≤ limits'.maxIterations) {s s' : State}
    (H : Alike s s') (heof : s.eof.word = s'.eof.word)
    (h : (fileBody limits room s).state.raised = s.raised) :
    (fileBody limits' room s').state.raised = s'.raised ∧
      plain (fileBody limits' room s').emitted = plain (fileBody limits room s).emitted := by
  have hruns (limits : Limits) : (contents limits room limits.maxIterations).Runs :=
    (Runs.inherited.items limits room _).bind fun _ => Runs.inherited.leftover
  rw [fileBody_apply] at h
  have hsame := contents_same limits room hle hle H h
  have hword : (contents limits room limits.maxIterations s).state.eof.word =
      (contents limits' room limits'.maxIterations s').state.eof.word := by
    rw [(hruns limits s).eof_eq, (hruns limits' s').eof_eq, heof]
  simp only [fileBody_apply]
  refine ⟨hsame.raised_eq, ?_⟩
  rw [plain_append, plain_append, plain_append, plain_append, hsame.plain_eq,
    plain_trivia hsame.alike.wf.isTrivia_pending, plain_trivia hsame.alike.wf'.isTrivia_pending,
    plain_token hsame.alike.wf.isTrivia_eof, plain_token hsame.alike.wf'.isTrivia_eof, hword]

theorem fileBody_same {s s' : State} (H : Alike s s') (heof : s.eof.word = s'.eof.word)
    (h : (fileBody limits room s).state.raised = s.raised) :
    (fileBody limits room s').state.raised = s'.raised ∧
      plain (fileBody limits room s').emitted = plain (fileBody limits room s).emitted :=
  fileBody_more limits room (Nat.le_refl _) H heof h

end Rule

theorem significant_start (source : String) :
    significant (State.start source).rest = significant (TokenStream.ofChars source.toList).body :=
  significant_dropWhile

theorem words_start (source : String) :
    words (State.start source).rest ++ [⟨.eof, []⟩] = words (tokenize source) := by
  rw [tokenize, TokenStream.toList, words_append, words, significant_start, ← words]
  rfl

/-- Texts whose tokens have the same characters, trivia left out, have tokens of the same kinds. If
one of them has no errors then the other has none either, and the trees are the same but for trivia
and places. -/
theorem parse_layout (a b : String) (limits : Limits)
    (h : (significant (tokenize a)).map Token.chars = (significant (tokenize b)).map Token.chars) :
    (significant (tokenize a)).map Token.kind = (significant (tokenize b)).map Token.kind ∧
      ((parse a limits).errors = [] → (parse b limits).errors = [] ∧
        (parse b limits).tree.plain = (parse a limits).tree.plain) := by
  have hwords := words_tokenize_eq h
  refine ⟨?_, fun ha => ?_⟩
  · rw [← kindsOf_eq_map_significant, ← kindsOf_eq_map_significant, kindsOf_eq_map_words, hwords,
      kindsOf_eq_map_words]
  · rw [← words_start, ← words_start, List.append_cancel_right_eq] at hwords
    have halike : Alike (State.start a) (State.start b) :=
      ⟨State.wf_start a, State.wf_start b, hwords, rfl⟩
    have hsame := Rule.fileBody_same limits limits.maxDepth halike rfl
      ((State.errors_eq_nil_iff _).1 ha)
    refine ⟨(State.errors_eq_nil_iff _).2 hsame.1, ?_⟩
    exact congrArg (Sketch.node .file) hsame.2

/-- A comment and a line break in a variable. -/
theorem parse_layout_comment :
    (significant (tokenize "a=[1]")).map Token.chars =
        (significant (tokenize "a = // one\n [ 1 ]")).map Token.chars ∧
      (significant (tokenize "a=[1]")).map Token.kind =
        (significant (tokenize "a = // one\n [ 1 ]")).map Token.kind ∧
      ((parse "a=[1]" ⟨2, 9⟩).errors = [] → (parse "a = // one\n [ 1 ]" ⟨2, 9⟩).errors = [] ∧
        (parse "a = // one\n [ 1 ]" ⟨2, 9⟩).tree.plain = (parse "a=[1]" ⟨2, 9⟩).tree.plain) :=
  have h : (significant (tokenize "a=[1]")).map Token.chars =
      (significant (tokenize "a = // one\n [ 1 ]")).map Token.chars := by decide +kernel
  ⟨h, parse_layout "a=[1]" "a = // one\n [ 1 ]" ⟨2, 9⟩ h⟩

/-- A text without errors has none, and the same tree, when the loops of the grammar may take more
rounds. -/
theorem parse_moreIterations {source : String} {depth few many : Nat} (hle : few ≤ many)
    (h : (parse source ⟨depth, few⟩).errors = []) : (parse source ⟨depth, many⟩).errors = [] ∧
      (parse source ⟨depth, many⟩).tree.plain = (parse source ⟨depth, few⟩).tree.plain := by
  have halike : Alike (State.start source) (State.start source) :=
    ⟨State.wf_start source, State.wf_start source, rfl, rfl⟩
  obtain ⟨hraised, hplain⟩ := @Rule.fileBody_more ⟨depth, few⟩ ⟨depth, many⟩ depth hle
    _ _ halike rfl ((State.errors_eq_nil_iff _).1 h)
  exact ⟨(State.errors_eq_nil_iff _).2 hraised, congrArg (Sketch.node .file) hplain⟩

end Blueprint
