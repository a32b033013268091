import Blueprint.Proofs.Grammar.Rounds
import Blueprint.Proofs.Grammar.Agrees
import Blueprint.Proofs.Grammar.Fits.File

/-!
# More rounds change nothing unless a loop was stopped

A loop that takes too many rounds raises an error about it, or it skips and is cut short. Where no
rule did the one and none did the other, each does the same when the loops may take more rounds
(`Rule.SameUncut`), and so do all of them together: the tree and the errors of a text are the same
(`parse_uncut`). An error about a loop counts when it was raised, also when it was not recorded; and
the tree tells whether skipping was cut short.
-/

namespace Blueprint

open Element Token

namespace Rule

variable {α β : Type}

/-- Below a node of kind `parent` the second rule does what the first one does, wherever the first
one is not stopped by its limit. -/
structure SameUncut (limit : Nat) (parent : NodeKind) (r r' : Rule α) : Prop where
  runs : r.Runs
  same : ∀ ⦃s : State⦄, s.WF → (r s).state.Unstuck →
    uncutAll limit parent (r s).state.unattached (r s).emitted = true → r' s = r s

namespace SameUncut

variable {limit : Nat} {parent : NodeKind} {r r' : Rule α} {f f' : α → Rule β}

theorem refl (hr : r.Runs) : SameUncut limit parent r r := ⟨hr, fun _ _ _ _ => rfl⟩

theorem pure {a : α} : SameUncut limit parent (Pure.pure a : Rule α) (Pure.pure a) := refl .pure

theorem bump : SameUncut limit parent Rule.bump Rule.bump := refl .bump

theorem bind (h : SameUncut limit parent r r') (hf : ∀ a, SameUncut limit parent (f a) (f' a)) :
    SameUncut limit parent (r >>= f) (r' >>= f') := by
  refine ⟨h.runs.bind fun a => (hf a).runs, fun s H hunstuck huncut => ?_⟩
  have hrun := (hf (r s).value).runs (r s).state
  rw [bind_apply, uncutAll_append, hrun.leavesAll_append_unattached, Bool.and_eq_true] at huncut
  have hr := h.same H (fun e he => hunstuck e (hrun.raised_suffix.mem he)) huncut.1
  rw [bind_apply, bind_apply, hr, (hf _).same ((h.runs s).wf H) hunstuck huncut.2]

theorem view_bind {γ : Type} {g : State → γ} {f f' : γ → Rule β}
    (hf : ∀ a, SameUncut limit parent (f a) (f' a)) :
    SameUncut limit parent (view g >>= f) (view g >>= f') := (refl .view).bind hf

theorem ite {c : Prop} [Decidable c] {r₂ r₂' : Rule α} (h : SameUncut limit parent r r')
    (h₂ : SameUncut limit parent r₂ r₂') :
    SameUncut limit parent (if c then r else r₂) (if c then r' else r₂') := by
  split
  · exact h
  · exact h₂

/-- An error about a loop is told. -/
theorem stuck {rule : String} {r' : Rule Unit} : SameUncut limit parent (raiseStuck rule) r' :=
  ⟨Runs.inherited.raiseHere _, fun _ _ hunstuck _ => absurd rfl (hunstuck _ (.head _) rule)⟩

theorem stuck_bind {rule : String} {f : Unit → Rule β} {r' : Rule β} (hf : (f ()).Runs) :
    SameUncut limit parent (raiseStuck rule >>= f) r' := by
  refine ⟨(Runs.inherited.raiseHere _).bind fun _ => hf, fun s _ hunstuck _ => ?_⟩
  have hmem : ⟨.parserStuck rule, s.token.span⟩ ∈ ((raiseStuck rule >>= f) s).state.raised :=
    (hf (raiseStuck rule s).state).raised_suffix.mem (.head _)
  exact absurd rfl (hunstuck _ hmem rule)

/-- A node other than an error node. -/
theorem node {kind : NodeKind} (h : SameUncut limit kind r r') :
    SameUncut limit parent (Rule.node kind r) (Rule.node kind r') := by
  refine ⟨h.runs.node, fun s H hunstuck huncut => ?_⟩
  rw [node_apply] at hunstuck huncut
  rw [uncutAll_pending_node, uncut, Bool.and_eq_true] at huncut
  rw [node_apply, node_apply, h.same H.opened hunstuck huncut.2]

/-- An error node: its body does the same, or it ends too early. -/
theorem node_error (hr : r.Runs) (h : ∀ ⦃s : State⦄, s.WF → r' s = r s ∨
      limit ≤ (taken r s).length ∧
        endsItself limit parent (taken r s) (r s).state.unattached = false) :
    SameUncut limit parent (Rule.node .error r) (Rule.node .error r') := by
  refine ⟨hr.node, fun s H _ huncut => ?_⟩
  rw [node_apply] at huncut
  rw [uncutAll_pending_node, uncut, Bool.and_eq_true, Bool.or_eq_true, Bool.or_eq_true,
    decide_eq_true_iff] at huncut
  rw [node_apply, node_apply]
  rcases h H.opened with hsame | ⟨hlen, hends⟩
  · rw [hsame]
  · rcases huncut.1 with (herror | hlt) | huncut
    · cases herror
    · exact absurd hlt (Nat.not_lt_of_le hlen)
    · exact absurd (hends.symm.trans huncut) Bool.false_ne_true

theorem nodeOutcome {kind : NodeKind} {r r' : Rule Bool} (h : SameUncut limit kind r r') :
    SameUncut limit parent (Rule.nodeOutcome kind r) (Rule.nodeOutcome kind r') :=
  h.node.bind fun _ => pure

theorem succeeds {r r' : Rule Outcome} (h : SameUncut limit parent r r') :
    SameUncut limit parent r.succeeds r'.succeeds := h.bind fun _ => pure

theorem unlessAt {kinds : List TokenKind} {r r' : Rule Bool} (h : SameUncut limit parent r r') :
    SameUncut limit parent (Rule.unlessAt kinds r) (Rule.unlessAt kinds r') :=
  view_bind fun _ => .ite pure h

end SameUncut

/-! ### Skipping -/

/-- An error node over a construct that lies too deep. -/
theorem sameUncut_groups {limit : Nat} {parent : NodeKind} {r r' : Rule Unit}
    (hparent : parent ∈ [NodeKind.arrayExpr, .value, .variableRefExpr]) (hr : r.Runs)
    (h : ∀ ⦃s : State⦄, s.WF → r' s = r s ∨ limit ≤ (taken r s).length ∧
      TokenKind.wholeGroups limit (r s).state.atEof (taken r s) = false) :
    SameUncut limit parent (node .error r) (node .error r') := by
  refine .node_error hr fun s H => (h H).imp_right fun ⟨hlen, hwhole⟩ => ⟨hlen, ?_⟩
  rw [endsItself, ((hr s).wf H).lookAhead_unattached_zero, if_pos (List.contains_iff_mem.2 hparent)]
  exact hwhole

variable {depth few many : Nat}

section
variable {parent : NodeKind} (hle : few ≤ many)
include hle

/-- Skipping up to a place to go on from, below a node that has such places. -/
theorem sameUncut_skipUntil {stop : State → Bool}
    (hparent : parent ∉ [NodeKind.arrayExpr, .value, .variableRefExpr])
    (hstop : ∀ ⦃s : State⦄, s.WF → stop s = parent.resumesAt s.unattached) :
    SameUncut few parent (skipUntil ⟨depth, few⟩ stop) (skipUntil ⟨depth, many⟩ stop) := by
  refine .view_bind fun _ => .ite .pure ((SameUncut.node_error (Runs.inherited.skipLoop _ _ _)
    fun s H => ?_).bind fun _ => .pure)
  refine (skipLoop_more H hle).imp_right fun ⟨hlen, hgo⟩ => ⟨hlen.ge, ?_⟩
  have ht := (Runs.inherited.skipLoop stop few 0 s).wf H
  rw [← List.contains_iff_mem, Bool.not_eq_true] at hparent
  rw [endsItself, ht.lookAhead_unattached_zero, ← hstop ht, hparent]
  exact hgo

theorem sameUncut_skipPair :
    SameUncut few .pair (skipPair ⟨depth, few⟩) (skipPair ⟨depth, many⟩) := by
  refine sameUncut_skipUntil hle (by decide) fun s H => ?_
  rw [NodeKind.resumesAt, H.lookAhead_unattached_zero, H.lookAhead_unattached_one,
    H.takeWhile_unattached]
  rfl

theorem sameUncut_skipMembers :
    SameUncut few .members (skipMembers ⟨depth, few⟩) (skipMembers ⟨depth, many⟩) := by
  refine sameUncut_skipUntil hle (by decide) fun s H => ?_
  rw [NodeKind.resumesAt, H.lookAhead_unattached_zero, H.lookAhead_unattached_one]
  rfl

theorem sameUncut_skipElements :
    SameUncut few .elements (skipElements ⟨depth, few⟩) (skipElements ⟨depth, many⟩) := by
  refine sameUncut_skipUntil hle (by decide) fun s H => ?_
  rw [NodeKind.resumesAt, H.lookAhead_unattached_zero]

theorem sameUncut_skipItem :
    SameUncut few .file (skipItem ⟨depth, few⟩) (skipItem ⟨depth, many⟩) := by
  refine sameUncut_skipUntil hle (by decide) fun s H => ?_
  rw [NodeKind.resumesAt, H.lookAhead_unattached_zero]

theorem sameUncut_skipGroup (hparent : parent ∈ [NodeKind.arrayExpr, .value, .variableRefExpr]) :
    SameUncut few parent (skipGroup ⟨depth, few⟩) (skipGroup ⟨depth, many⟩) := by
  refine (sameUncut_groups hparent (Runs.inherited.bumpGroup _ _) fun s H => ?_).bind fun _ => .pure
  refine (bumpGroup_more H hle).imp And.left fun ⟨hend, hlen, hopen⟩ => ⟨hlen.ge, ?_⟩
  rw [hend]
  rcases Nat.eq_zero_or_pos few with hzero | hpos
  · rw [List.eq_nil_of_length_eq_zero (hlen.trans hzero)]
    rfl
  · exact wholeGroups_of_staysOpen (hopen (.inr hpos)) nofun

theorem sameUncut_skipChain :
    SameUncut few .variableRefExpr (skipChain ⟨depth, few⟩) (skipChain ⟨depth, many⟩) := by
  refine SameUncut.bind ?_ fun _ => .pure
  exact sameUncut_groups (by decide) (Runs.inherited.bumpChain _ _) fun _ H =>
    bumpChain_more hle H (Nat.le_refl _) hle

/-- A construct past the depth limit. -/
theorem sameUncut_tooDeep (hparent : parent ∈ [NodeKind.arrayExpr, .value, .variableRefExpr]) :
    SameUncut few parent (tooDeep ⟨depth, few⟩) (tooDeep ⟨depth, many⟩) :=
  (SameUncut.refl (Runs.inherited.raiseHere _)).bind fun _ =>
    (sameUncut_skipGroup hle hparent).bind fun _ => .pure

end

/-! ### Values -/

/-- After an error the rest is skipped. -/
theorem SameUncut.recover {limit : Nat} {parent : NodeKind} {r : Rule Unit} {skip skip' : Rule Bool}
    {next next' : Rule α} (hr : r.Raises) (hskip : SameUncut limit parent skip skip')
    (hnext : SameUncut limit parent next next') :
    SameUncut limit parent (do r; let _ ← skip; next) (do r; let _ ← skip'; next') :=
  (refl hr.runs).bind fun _ => hskip.bind fun _ => hnext

theorem sameUncut_stringTail {parent : NodeKind} {budget budget' : Nat} (h : budget ≤ budget') :
    SameUncut few parent (stringTail budget) (stringTail budget') := by
  induction budget generalizing budget' with
  | zero => cases budget' <;> exact .view_bind fun _ => .ite .stuck .pure
  | succ budget ih =>
    obtain ⟨budget', rfl⟩ := Nat.exists_eq_add_of_lt h
    exact .view_bind fun _ => .ite (SameUncut.bump.bind fun _ => SameUncut.bump.bind fun _ =>
      ih (Nat.le_add_right _ _)) .pure

section
variable {parent : NodeKind} (hle : few ≤ many)
include hle

theorem sameUncut_stringExpr :
    SameUncut few parent (stringExpr ⟨depth, few⟩) (stringExpr ⟨depth, many⟩) :=
  .view_bind fun _ => .ite (.nodeOutcome (SameUncut.bump.bind fun _ =>
    (sameUncut_stringTail hle).bind fun _ => .pure)) .pure

theorem sameUncut_elementsLoop {budget budget' : Nat} (h : budget ≤ budget') :
    SameUncut few .elements (elementsLoop ⟨depth, few⟩ budget)
      (elementsLoop ⟨depth, many⟩ budget') := by
  induction budget generalizing budget' with
  | zero => exact .stuck_bind .pure
  | succ budget ih =>
    obtain ⟨budget', rfl⟩ := Nat.exists_eq_add_of_lt h
    refine (SameUncut.refl Runs.inherited.arrayElement).bind fun _ =>
      .ite ?_ (.view_bind fun _ => ?_)
    · exact .recover (raises_raiseExpected _) (sameUncut_skipElements hle) .pure
    · split
      · exact SameUncut.bump.bind fun _ =>
          .view_bind fun _ => .ite .pure (ih (Nat.le_add_right _ _))
      · exact .pure
      · exact .pure
      · exact .recover (raises_raiseExpected _) (sameUncut_skipElements hle) .pure

theorem sameUncut_arrayBody :
    SameUncut few parent (arrayBody ⟨depth, few⟩) (arrayBody ⟨depth, many⟩) :=
  SameUncut.bump.bind fun _ =>
    (SameUncut.nodeOutcome (sameUncut_elementsLoop hle hle)).succeeds.unlessAt.bind fun _ =>
    (SameUncut.refl (Runs.inherited.expect _)).bind fun _ => .pure

theorem sameUncut_array (room : Bool) :
    SameUncut few .arrayExpr (array ⟨depth, few⟩ room) (array ⟨depth, many⟩ room) :=
  .view_bind fun _ => .ite .pure
    (.ite (.nodeOutcome (sameUncut_arrayBody hle)) (sameUncut_tooDeep hle (by decide)))

theorem sameUncut_arrayTail (room : Bool) {budget budget' : Nat} (h : budget ≤ budget') :
    SameUncut few .arrayExpr (arrayTail ⟨depth, few⟩ room budget)
      (arrayTail ⟨depth, many⟩ room budget') := by
  induction budget generalizing budget' with
  | zero => cases budget' <;> exact .view_bind fun _ => .ite (.stuck_bind .pure) .pure
  | succ budget ih =>
    obtain ⟨budget', rfl⟩ := Nat.exists_eq_add_of_lt h
    exact .view_bind fun _ => .ite (SameUncut.bump.bind fun _ =>
      (sameUncut_array hle _).bind fun _ => (ih (Nat.le_add_right _ _)).bind fun _ => .pure) .pure

theorem sameUncut_arrayExpr (room : Bool) :
    SameUncut few parent (arrayExpr ⟨depth, few⟩ room) (arrayExpr ⟨depth, many⟩ room) :=
  .view_bind fun _ => .ite (.nodeOutcome ((sameUncut_array hle _).bind fun _ =>
    (sameUncut_arrayTail hle _ hle).bind fun _ => .pure)) .pure

section
variable {value value' : Rule Outcome} (hvalue : ∀ parent, SameUncut few parent value value')
include hvalue

theorem sameUncut_pair :
    SameUncut few parent (pair ⟨depth, few⟩ value) (pair ⟨depth, many⟩ value') := by
  refine .view_bind fun _ => .ite (.view_bind fun _ => .nodeOutcome ?_) .pure
  refine (SameUncut.refl Runs.bump.node).bind fun _ =>
    (SameUncut.refl (Runs.inherited.eat _)).bind fun _ => .ite ((hvalue _).bind fun _ => ?_) ?_
  · split
    · exact .pure
    · exact .pure
    · exact .recover (raises_raiseMissingValue _) (sameUncut_skipPair hle) .pure
  · exact .recover (raises_raiseExpected _) (sameUncut_skipPair hle) .pure

theorem sameUncut_membersLoop {budget budget' : Nat} (h : budget ≤ budget') (found : Bool) :
    SameUncut few .members (membersLoop ⟨depth, few⟩ value budget found)
      (membersLoop ⟨depth, many⟩ value' budget' found) := by
  induction budget generalizing budget' found with
  | zero => exact .stuck_bind .pure
  | succ budget ih =>
    obtain ⟨budget', rfl⟩ := Nat.exists_eq_add_of_lt h
    have hrest := fun found => ih (Nat.le_add_right budget budget') found
    refine .view_bind fun _ => ?_
    split
    · exact .pure
    · exact .pure
    · refine (sameUncut_pair hle hvalue).bind fun _ => .view_bind fun _ => ?_
      split
      · exact SameUncut.bump.bind fun _ => (hrest _).bind fun _ => .pure
      · exact .pure
      · exact .pure
      · exact .recover (raises_raiseExpected _) (sameUncut_skipMembers hle)
          ((hrest _).bind fun _ => .pure)
    · exact .recover (raises_raiseExpected _) (sameUncut_skipMembers hle)
        ((hrest _).bind fun _ => .pure)

theorem sameUncut_body :
    SameUncut few parent (body ⟨depth, few⟩ value) (body ⟨depth, many⟩ value') :=
  (SameUncut.refl (Runs.inherited.expect _)).bind fun _ => .ite
    ((SameUncut.nodeOutcome (sameUncut_membersLoop hle hvalue hle _)).succeeds.unlessAt.bind fun _ =>
      (SameUncut.refl (Runs.inherited.expect _)).bind fun _ => .pure) .pure

end

end

end Rule

/-- Rules of the next level that do the same, with as many rounds at least in the second ones. -/
inductive Inner.SameUncut (limit : Nat) : Option Inner → Option Inner → Prop
  | none : Inner.SameUncut limit none none
  | some {rules rules' : Inner} :
    (∀ parent, Rule.SameUncut limit parent rules.value rules'.value) →
    (∀ {budget budget' : Nat}, budget ≤ budget' →
      Rule.SameUncut limit .variableRefExpr (rules.links budget) (rules'.links budget')) →
    Inner.SameUncut limit (some rules) (some rules')

namespace Rule

variable {depth few many : Nat} {parent : NodeKind} (hle : few ≤ many)

section
variable {inner inner' : Option Inner} (hinner : Inner.SameUncut few inner inner')
include hle hinner

theorem sameUncut_object :
    SameUncut few .value (object ⟨depth, few⟩ inner) (object ⟨depth, many⟩ inner') := by
  refine .view_bind fun _ => .ite ?_ .pure
  cases hinner with
  | none => exact sameUncut_tooDeep hle (by decide)
  | some hvalue _ => exact .nodeOutcome (sameUncut_body hle hvalue)

theorem sameUncut_operand :
    SameUncut few .value (operand ⟨depth, few⟩ inner) (operand ⟨depth, many⟩ inner') := by
  have hroom : inner.isSome = inner'.isSome := by cases hinner <;> rfl
  refine .view_bind fun _ => ?_
  split
  · exact (sameUncut_stringExpr hle).succeeds
  · rw [hroom]
    exact (sameUncut_arrayExpr hle _).succeeds
  · exact (sameUncut_object hle hinner).succeeds
  · exact SameUncut.bump.bind fun _ => .pure

theorem sameUncut_links {budget budget' : Nat} (h : budget ≤ budget') :
    SameUncut few .variableRefExpr (links ⟨depth, few⟩ inner budget)
      (links ⟨depth, many⟩ inner' budget') := by
  cases budget with
  | zero => exact .stuck_bind .pure
  | succ budget =>
    obtain ⟨budget', rfl⟩ := Nat.exists_eq_add_of_lt h
    refine SameUncut.bump.bind fun _ => .view_bind fun _ =>
      .ite (SameUncut.bump.bind fun _ => .view_bind fun _ => .ite ?_ ?_) .pure
    · cases hinner with
      | none =>
        exact (SameUncut.refl (Runs.inherited.raiseHere _)).bind fun _ =>
          (sameUncut_skipChain hle).bind fun _ => .pure
      | some _ hlinks =>
        exact (hlinks (Nat.le_add_right budget budget')).node.node.bind fun _ => .pure
    · exact (sameUncut_operand hle hinner).node.bind fun _ => .pure

theorem sameUncut_variableRefExpr :
    SameUncut few parent (variableRefExpr ⟨depth, few⟩ inner)
      (variableRefExpr ⟨depth, many⟩ inner') :=
  .view_bind fun _ => .ite (.nodeOutcome (sameUncut_links hle hinner hle)) .pure

theorem sameUncut_value :
    SameUncut few parent (value ⟨depth, few⟩ inner) (value ⟨depth, many⟩ inner') :=
  .view_bind fun _ => .ite (.nodeOutcome (.view_bind fun _ =>
    .ite (sameUncut_variableRefExpr hle hinner).succeeds (sameUncut_operand hle hinner))) .pure

end

include hle

theorem sameUncut_innerAt (room : Nat) :
    Inner.SameUncut few (innerAt ⟨depth, few⟩ room) (innerAt ⟨depth, many⟩ room) := by
  induction room with
  | zero => exact .none
  | succ room ih => exact .some (fun _ => sameUncut_value hle ih) fun h => sameUncut_links hle ih h

/-! ### Files -/

variable (room : Nat)

theorem sameUncut_blueprint :
    SameUncut few parent (blueprint ⟨depth, few⟩ room) (blueprint ⟨depth, many⟩ room) :=
  .view_bind fun _ => .ite (.nodeOutcome ((SameUncut.refl Runs.bump.node).bind fun _ =>
    sameUncut_body hle fun _ => sameUncut_value hle (sameUncut_innerAt hle room))) .pure

theorem sameUncut_variableDef :
    SameUncut few parent (variableDef ⟨depth, few⟩ room) (variableDef ⟨depth, many⟩ room) := by
  refine .view_bind fun _ => .ite (.view_bind fun _ => .nodeOutcome ?_) .pure
  refine SameUncut.bump.bind fun _ => (SameUncut.refl Runs.inherited.eatAssignment).bind fun _ =>
    .ite ?_ ((SameUncut.refl (Runs.inherited.raiseExpected _)).bind fun _ => .pure)
  refine (sameUncut_value hle (sameUncut_innerAt hle room)).bind fun _ => ?_
  split
  · exact .pure
  · exact .pure
  · exact (SameUncut.refl (Runs.inherited.raiseMissingValue _)).bind fun _ => .pure

theorem sameUncut_item :
    SameUncut few parent (item ⟨depth, few⟩ room) (item ⟨depth, many⟩ room) := by
  refine .view_bind fun _ => ?_
  split
  · exact sameUncut_blueprint hle room
  · exact sameUncut_variableDef hle room
  · exact .pure

theorem sameUncut_itemOrSkip :
    SameUncut few .file (itemOrSkip ⟨depth, few⟩ room) (itemOrSkip ⟨depth, many⟩ room) :=
  (sameUncut_item hle room).bind fun _ => .ite .pure
    (.recover (raises_raiseExpected _) (sameUncut_skipItem hle) .pure)

theorem sameUncut_items {budget budget' : Nat} (h : budget ≤ budget') :
    SameUncut few .file (items ⟨depth, few⟩ room budget) (items ⟨depth, many⟩ room budget') := by
  induction budget generalizing budget' with
  | zero => cases budget' <;> exact .view_bind fun _ => .ite .pure .stuck
  | succ budget ih =>
    obtain ⟨budget', rfl⟩ := Nat.exists_eq_add_of_lt h
    exact .view_bind fun _ => .ite .pure <| .view_bind fun before =>
      (sameUncut_itemOrSkip hle room).bind fun _ =>
        (SameUncut.refl (Runs.inherited.forceProgress before)).bind fun _ => ih (Nat.le_add_right _ _)

theorem sameUncut_contents :
    SameUncut few .file (contents ⟨depth, few⟩ room few) (contents ⟨depth, many⟩ room many) :=
  (sameUncut_items hle room hle).bind fun _ => .refl Runs.inherited.leftover

end Rule

/-- Every error that is raised about a text, recorded or not, the last one first. -/
def raisedErrors (source : String) (limits : Limits) : List SyntaxError :=
  (Rule.fileBody limits limits.maxDepth (State.start source)).state.raised

/-- When no error about a loop is raised, recorded or not, and no skipping is cut short, the tree
and the errors of a text are the same when the loops may take more rounds. -/
theorem parse_uncut {source : String} {depth few many : Nat} (hle : few ≤ many)
    (hunstuck : ∀ e ∈ raisedErrors source ⟨depth, few⟩, ∀ rule, e.problem ≠ .parserStuck rule)
    (huncut : (parse source ⟨depth, few⟩).tree.uncut few = true) :
    parse source ⟨depth, many⟩ = parse source ⟨depth, few⟩ := by
  have H := State.wf_start source
  have hchildren : (parse source ⟨depth, few⟩).tree.root.children =
      (Rule.fileBody ⟨depth, few⟩ depth (State.start source)).emitted := rfl
  rw [raisedErrors, Rule.fileBody_apply] at hunstuck
  rw [Tree.uncut, hchildren, Rule.fileBody_apply] at huncut
  refine parse_congr ?_
  rw [Rule.fileBody_apply, Rule.fileBody_apply,
    (Rule.sameUncut_contents hle depth).same H hunstuck ?_]
  have hrest : (Rule.contents ⟨depth, few⟩ depth few (State.start source)).state.rest = [] :=
    (Rule.leftover_ensures ((Rule.Runs.inherited.items ⟨depth, few⟩ depth few _).wf H)).2
  have hcontents := (Bool.and_eq_true_iff.1 ((uncutAll_append _ _).symm.trans huncut)).1
  rw [leavesAll_append, leavesAll_map_token, List.append_nil] at hcontents
  rw [State.unattached, hrest, List.append_nil]
  exact hcontents

theorem not_parserStuck_of_problems {es : List SyntaxError} {problems : List Problem}
    (h : es.map SyntaxError.problem = problems) (hproblems : ∀ rule, .parserStuck rule ∉ problems) :
    ∀ e ∈ es, ∀ rule, e.problem ≠ .parserStuck rule :=
  fun _ he rule hrule => hproblems rule (h ▸ hrule ▸ List.mem_map_of_mem he)

/-- Five commas in a module, and an array of five tokens where none may be: each is skipped in as
many rounds as there may be, and none is left out. -/
theorem parse_uncut_five :
    (∀ e ∈ raisedErrors "m \x7b , , , , , \x7d x = [1,2]" ⟨0, 5⟩, ∀ rule,
        e.problem ≠ .parserStuck rule) ∧
      (parse "m \x7b , , , , , \x7d x = [1,2]" ⟨0, 5⟩).tree.uncut 5 = true ∧
      parse "m \x7b , , , , , \x7d x = [1,2]" ⟨0, 9⟩ =
        parse "m \x7b , , , , , \x7d x = [1,2]" ⟨0, 5⟩ := by
  have hproblems : (raisedErrors "m \x7b , , , , , \x7d x = [1,2]" ⟨0, 5⟩).map SyntaxError.problem =
      [.nestingTooDeep 0, .unexpectedToken [.fieldName] .separator] := by decide +kernel
  have hunstuck := not_parserStuck_of_problems hproblems (by simp)
  have huncut : (parse "m \x7b , , , , , \x7d x = [1,2]" ⟨0, 5⟩).tree.uncut 5 = true := by
    decide +kernel
  exact ⟨hunstuck, huncut, parse_uncut (by decide) hunstuck huncut⟩

/-- Silence about the loops does not mean that none was stopped. Four commas are cut short after
three rounds, about which no error is raised; and the error about the second pair of a module that
may have one starts where another one does, and is dropped. -/
theorem parse_cut_silently :
    ((∀ e ∈ (parse "m \x7b , , , , \x7d" ⟨64, 3⟩).errors, ∀ rule, e.problem ≠ .parserStuck rule) ∧
        parse "m \x7b , , , , \x7d" ⟨64, 4⟩ ≠ parse "m \x7b , , , , \x7d" ⟨64, 3⟩) ∧
      (∀ e ∈ (parse "m \x7b a = 1 b = 2 \x7d" ⟨64, 1⟩).errors, ∀ rule,
          e.problem ≠ .parserStuck rule) ∧
        parse "m \x7b a = 1 b = 2 \x7d" ⟨64, 2⟩ ≠ parse "m \x7b a = 1 b = 2 \x7d" ⟨64, 1⟩ := by
  have hcommas : (parse "m \x7b , , , , \x7d" ⟨64, 3⟩).errors.map SyntaxError.problem =
      [.unexpectedToken [.fieldName] .separator, .unexpectedToken [.fieldName] .separator] := by
    decide +kernel
  have hpairs : (parse "m \x7b a = 1 b = 2 \x7d" ⟨64, 1⟩).errors.map SyntaxError.problem =
      [.unexpectedToken [.separator, .objectEnd] .fieldName] := by decide +kernel
  refine ⟨⟨not_parserStuck_of_problems hcommas (by simp), fun h => ?_⟩,
    not_parserStuck_of_problems hpairs (by simp), fun h => ?_⟩
  · exact absurd (congrArg (·.errors.length) h) (by decide +kernel)
  · exact absurd (congrArg (·.tree.root.children.length) h) (by decide +kernel)

end Blueprint
