import Blueprint.Proofs.Grammar.Ensures
import Blueprint.Proofs.Grammar.Fits.File
import Blueprint.Proofs.Token.Partition
import Blueprint.Proofs.Tree.Lossless

/-!
# How many nodes a text can have

A node is paid for by the tokens that a rule takes: two nodes for each. `State.weight` counts the
nodes so far and two for each token to come, and `r.Adds n` says that `r` raises it by `n` at most.
A rule that starts nodes without taking a token has to be paid for by the one that calls it: a value
raises the weight by two (`Rule.adds_value`), which the name and the `=` in front of it pay for. The
tree of a text then has at most two nodes for each byte and one for the file (`parse_sizes`). It can
have more nodes than the text has bytes (`parse_sizes_array`).
-/

namespace Blueprint

namespace State

/-- The nodes so far, and two for each token to come. -/
def weight (s : State) : Nat := s.nodes + 2 * s.kinds.length

end State

namespace Rule

variable {α β : Type} {s : State} {n m : Int}

/-- The rule raises the weight of a state by `n` at most. Its lemmas compare numerals only, which
`rfl` decides. -/
def AddsAt (s : State) (n : Int) (r : Rule α) : Prop :=
  s.WF → r.Ensures s fun _ _ t => (t.weight : Int) ≤ s.weight + n

/-- The rule raises the weight by `n` at most, wherever it runs. -/
def Adds (n : Int) (r : Rule α) : Prop := ∀ s, r.AddsAt s n

namespace AddsAt

variable {r r' : Rule α}

theorem mono (h : r.AddsAt s n) (hle : decide (n ≤ m) = true) : r.AddsAt s m :=
  fun H => (h H).mono fun _ _ _ _ ht => by
    have hle := of_decide_eq_true hle
    omega

theorem pure {a : α} (h : decide (0 ≤ n) = true) : (Pure.pure a : Rule α).AddsAt s n :=
  fun _ => .pure (by have h := of_decide_eq_true h; omega)

/-- What the first rule adds is no longer there for the ones after it. -/
theorem bind {f : α → Rule β} (h : r.AddsAt s n) (hf : ∀ a t, (f a).AddsAt t (m - n)) :
    (r >>= f).AddsAt s m := fun H =>
  (h H).bind fun a _ t hr ht => (hf a t (hr.wf H)).mono fun _ _ _ _ hu => by omega

theorem view_bind {g : State → α} {f : α → Rule β} (h : (f (g s)).AddsAt s n) :
    (Rule.view g >>= f).AddsAt s n := fun H => .view_bind (h H)

theorem ite {c : Prop} [Decidable c] (h : c → r.AddsAt s n) (h' : ¬c → r'.AddsAt s n) :
    (if c then r else r').AddsAt s n := fun H => .ite (fun hc => h hc H) fun hc => h' hc H

theorem of_raises {r : Rule Unit} (hr : r.Raises) (h : decide (0 ≤ n) = true) : r.AddsAt s n :=
  fun _ => .of_raises hr fun _ => by
    have h := of_decide_eq_true h
    change (s.weight : Int) ≤ _
    omega

theorem raises_bind {r : Rule Unit} (hr : r.Raises) {f : Unit → Rule β}
    (hf : ∀ e, (f ()).AddsAt { s with raised := e :: s.raised } n) : (r >>= f).AddsAt s n := by
  intro H
  have h : r.Ensures s fun _ _ t => ∃ e, t = { s with raised := e :: s.raised } :=
    .of_raises hr fun e => ⟨e, rfl⟩
  refine h.bind fun _ _ _ _ ht => ?_
  obtain ⟨e, rfl⟩ := ht
  exact (hf e (H.raise e)).mono fun _ _ _ _ hu => hu

theorem node {kind : NodeKind} (h : r.AddsAt s.opened (n - 1)) : (Rule.node kind r).AddsAt s n :=
  fun H => .node <| (h H.opened).mono fun _ _ _ _ ht => by
    have hopened : s.opened.weight = s.weight + 1 := Nat.add_right_comm _ _ _
    omega

theorem nodeOutcome {kind : NodeKind} {r : Rule Bool} (h : r.AddsAt s.opened (n - 1)) :
    (Rule.nodeOutcome kind r).AddsAt s n := fun H => .bind_pure (node h H)

theorem succeeds {r : Rule Outcome} (h : r.AddsAt s n) : r.succeeds.AddsAt s n :=
  fun H => .succeeds (h H)

theorem unlessAt {kinds : List TokenKind} {r : Rule Bool} (h : r.AddsAt s n)
    (hn : decide (0 ≤ n) = true) : (Rule.unlessAt kinds r).AddsAt s n :=
  view_bind <| ite (fun _ => pure hn) fun _ => h

/-- A token pays for two nodes. -/
theorem bump (h : s.current ≠ .eof) : Rule.bump.AddsAt s (-2) := by
  intro H
  apply Ensures.of_runs .bump
  cases hr : s.rest with
  | nil =>
    have heof := H.atEof_iff.2 (H.kinds_eq_nil_iff.2 hr)
    exact absurd (beq_iff_eq.1 heof) h
  | cons t ts =>
    rw [bump_cons hr]
    simp only [State.weight, State.kinds_passed, H.kinds_eq_cons hr, List.length_cons]
    change ((s.nodes + _ : Nat) : Int) ≤ _
    omega

theorem bump_bind {f : Unit → Rule β} (h : s.current ≠ .eof) (hf : ∀ t, (f ()).AddsAt t (n + 2)) :
    (Rule.bump >>= f).AddsAt s n := (bump h).bind fun _ t => hf t

end AddsAt

/-- At the end there is nothing to take, and elsewhere a token only pays. -/
theorem adds_bump : bump.Adds 0 := by
  intro s
  by_cases h : s.current = .eof
  · intro H
    have hrest := H.kinds_eq_nil_iff.1 (H.atEof_iff.1 (beq_iff_eq.2 h))
    apply Ensures.of_runs .bump
    rw [bump_nil hrest]
    exact Int.le_of_eq (Int.add_zero _).symm
  · exact (AddsAt.bump h).mono rfl

/-- The rule takes a token, which pays for two nodes, when it says that it went well. -/
def Pays (s : State) (r : Rule Bool) : Prop :=
  s.WF → r.Ensures s fun ok _ t => (t.weight : Int) ≤ s.weight - if ok then 2 else 0

namespace Pays

variable {r r' : Rule Bool}

theorem adds (h : r.Pays s) : r.AddsAt s 0 := fun H =>
  (h H).mono fun ok _ _ _ ht => by
    split at ht <;> omega

theorem bind {f : Bool → Rule β} (h : r.Pays s) (htrue : ∀ t, (f true).AddsAt t (n + 2))
    (hfalse : ∀ t, (f false).AddsAt t n) : (r >>= f).AddsAt s n := fun H =>
  (h H).bind fun ok _ t hr ht => by
    cases ok with
    | true => exact (htrue t (hr.wf H)).mono fun _ _ _ _ hu => by rw [if_pos rfl] at ht; omega
    | false => exact (hfalse t (hr.wf H)).mono fun _ _ _ _ hu => by rw [if_neg nofun] at ht; omega

/-- One rule or the other takes a token. -/
theorem orElse (h : r.Pays s) (h' : ∀ t, r'.Pays t) :
    (r >>= fun ok => if ok then Pure.pure true else r').Pays s := fun H =>
  (h H).bind fun ok _ t hr ht => by
    cases ok with
    | true => exact .pure ht
    | false =>
      exact (h' t (hr.wf H)).mono fun _ _ _ _ hu => by rw [if_neg nofun] at ht; omega

theorem fails {r : Rule α} (h : r.AddsAt s 0) : (r >>= fun _ => Pure.pure false).Pays s :=
  fun H => .bind_pure ((h H).mono fun _ _ _ _ ht => by rw [if_neg nofun]; omega)

theorem bump (h : s.current ≠ .eof) : (Rule.bump >>= fun _ => Pure.pure true).Pays s :=
  fun H => .bind_pure ((AddsAt.bump h H).mono fun _ _ _ _ ht => by rw [if_pos rfl]; omega)

theorem eat {kind : TokenKind} (hkind : kind ≠ .eof) : (Rule.eat kind).Pays s := fun H =>
  .view_bind <| .ite (fun hc => Pays.bump (by rw [beq_iff_eq.1 hc]; exact hkind) H)
    fun _ => .pure (by rw [if_neg nofun]; omega)

theorem eatAssignment : Rule.eatAssignment.Pays s :=
  (eat (by decide)).orElse fun _ => eat (by decide)

theorem expect {kind : TokenKind} (hkind : kind ≠ .eof) : (Rule.expect kind).Pays s :=
  (eat hkind).orElse fun _ => fails (.of_raises (raises_raiseExpected _) rfl)

end Pays

/-! ### Skipping -/

theorem adds_skipLoop (stop : State → Bool) (budget depth : Nat) :
    (skipLoop stop budget depth).Adds 0 := by
  induction budget generalizing depth with
  | zero => exact fun _ => .pure rfl
  | succ budget ih =>
    exact fun _ => .view_bind <| .ite (fun _ => .pure rfl) fun _ => .view_bind <|
      (adds_bump _).bind fun _ _ => ih _ _

theorem adds_bumpGroup (budget depth : Nat) : (bumpGroup budget depth).Adds 0 := by
  induction budget generalizing depth with
  | zero => exact fun _ => .pure rfl
  | succ budget ih =>
    exact fun _ => .view_bind <| .ite (fun _ => .pure rfl) fun _ => .view_bind <|
      (adds_bump _).bind fun _ _ => .ite (fun _ => .pure rfl) fun _ => ih _ _

theorem adds_bumpChain (limits : Limits) (budget : Nat) : (bumpChain limits budget).Adds 0 := by
  induction budget with
  | zero => exact fun _ => .pure rfl
  | succ budget ih =>
    exact fun _ => .view_bind <| .ite (fun _ => .pure rfl) fun _ =>
      (adds_bumpGroup _ _ _).bind fun _ _ => .view_bind <|
        .ite (fun _ => (adds_bump _).bind fun _ _ => ih _) fun _ => .pure rfl

variable {limits : Limits}

section
variable (hrounds : limits.maxIterations ≠ 0)
include hrounds

/-- An error node holds a token, which pays for it, unless the rule stops only once the trivia in
front of the token is out of the way. -/
theorem adds_skipUntil {stop : State → Bool} (hopened : ∀ s, stop s.opened = true → stop s = true) :
    (skipUntil limits stop).Adds 0 := by
  obtain ⟨rounds, hlimit⟩ := Nat.exists_eq_succ_of_ne_zero hrounds
  refine fun s => .view_bind <| .ite (fun _ => .pure rfl) fun hstop => ?_
  refine .bind (n := -1) (.node ?_) fun _ _ => .pure rfl
  rw [hlimit, skipLoop]
  -- The rule does not stop where the loop starts, so the loop takes the token there.
  rw [Bool.or_eq_true, not_or] at hstop
  have hne : s.current ≠ .eof := fun heof => hstop.1 (beq_iff_eq.2 heof)
  refine .view_bind <| .ite (fun h => absurd h ?_) fun _ => .view_bind <|
    .bump_bind hne fun _ => adds_skipLoop _ _ _ _
  rw [Bool.or_eq_true, not_or, Bool.and_eq_true]
  exact ⟨hstop.1, fun h => hstop.2 (hopened s h.2)⟩

theorem adds_skipElements : (skipElements limits).Adds 0 := adds_skipUntil hrounds fun _ h => h

theorem adds_skipMembers : (skipMembers limits).Adds 0 := adds_skipUntil hrounds fun _ h => h

theorem adds_skipItem : (skipItem limits).Adds 0 := adds_skipUntil hrounds fun _ h => h

theorem adds_skipPair : (skipPair limits).Adds 0 :=
  adds_skipUntil hrounds fun _ h => Bool.or_eq_true _ _ ▸ .inl ((Bool.or_false _).symm.trans h)

theorem AddsAt.skipGroup (h : s.current ≠ .eof) : (Rule.skipGroup limits).AddsAt s (-1) := by
  obtain ⟨rounds, hlimit⟩ := Nat.exists_eq_succ_of_ne_zero hrounds
  refine .bind (n := -1) (.node ?_) fun _ _ => .pure rfl
  rw [hlimit, bumpGroup]
  refine .view_bind <| .ite (fun heof => absurd (beq_iff_eq.1 heof) h) fun _ => .view_bind ?_
  exact .bump_bind h fun _ => .ite (fun _ => .pure rfl) fun _ => adds_bumpGroup _ _ _

theorem AddsAt.tooDeep (h : s.current ≠ .eof) : (Rule.tooDeep limits).AddsAt s (-1) :=
  .raises_bind (raises_raiseHere _) fun _ =>
    .bind (n := -1) (.skipGroup hrounds h) fun _ _ => .pure rfl

end

theorem adds_skipChain : (skipChain limits).Adds 1 := fun _ =>
  .bind (n := 1) (.node (adds_bumpChain _ _ _)) fun _ _ => .pure rfl

/-! ### Values -/

theorem adds_stringTail (budget : Nat) : (stringTail budget).Adds 0 := by
  induction budget with
  | zero =>
    exact fun _ => .view_bind <| .ite (fun _ => .of_raises (raises_raiseHere _) rfl)
      fun _ => .pure rfl
  | succ budget ih =>
    exact fun _ => .view_bind <| .ite (fun _ => (adds_bump _).bind fun _ _ =>
      (adds_bump _).bind fun _ _ => ih _) fun _ => .pure rfl

theorem adds_stringExpr : (stringExpr limits).Adds 1 := fun _ =>
  .view_bind <| .ite (fun _ => .nodeOutcome <| (adds_bump _).bind fun _ _ =>
    (adds_stringTail _ _).bind fun _ _ => .pure rfl) fun _ => .pure rfl

/-- An element is one token. -/
theorem adds_arrayElement : arrayElement.Adds 0 := by
  refine fun s => .view_bind <| .ite (fun hc => ?_) fun _ => .pure rfl
  refine .nodeOutcome <| .bump_bind (fun heof => ?_) fun _ => .pure rfl
  rw [show s.current = .eof from heof] at hc
  exact absurd hc (by decide)

section
variable (hrounds : limits.maxIterations ≠ 0)
include hrounds

theorem adds_elementsLoop (budget : Nat) : (elementsLoop limits budget).Adds 0 := by
  induction budget with
  | zero => exact fun _ => .raises_bind (raises_raiseHere _) fun _ => .pure rfl
  | succ budget ih =>
    refine fun s => (adds_arrayElement s).bind fun _ t => .ite (fun _ => ?_) fun _ => ?_
    · exact .raises_bind (raises_raiseExpected _) fun _ =>
        (adds_skipElements hrounds _).bind fun _ _ => .pure rfl
    · refine .view_bind ?_
      split
      · exact (adds_bump _).bind fun _ _ => .view_bind <|
          .ite (fun _ => .pure rfl) fun _ => ih _
      · exact .pure rfl
      · exact .pure rfl
      · exact .raises_bind (raises_raiseExpected _) fun _ =>
          (adds_skipElements hrounds _).bind fun _ _ => .pure rfl

theorem adds_elements : (elements limits).Adds 1 :=
  fun _ => .nodeOutcome (adds_elementsLoop hrounds _ _)

theorem AddsAt.arrayBody (h : s.current ≠ .eof) : (Rule.arrayBody limits).AddsAt s (-1) :=
  .bump_bind h fun _ => .bind (n := 1) (.unlessAt (adds_elements hrounds _).succeeds rfl)
    fun _ _ => (Pays.expect (by decide)).adds.bind fun _ _ => .pure rfl

theorem adds_array (room : Bool) : (array limits room).Adds 0 := by
  refine fun s => .view_bind <| .ite (fun _ => .pure rfl) fun hc => ?_
  have hne : s.current ≠ .eof := fun heof => hc (by rw [heof]; rfl)
  exact .ite (fun _ => .nodeOutcome (.arrayBody hrounds hne)) fun _ =>
    (AddsAt.tooDeep hrounds hne).mono rfl

theorem adds_arrayTail (room : Bool) (budget : Nat) : (arrayTail limits room budget).Adds 0 := by
  induction budget with
  | zero =>
    exact fun _ => .view_bind <| .ite (fun _ => .raises_bind (raises_raiseHere _) fun _ =>
      .pure rfl) fun _ => .pure rfl
  | succ budget ih =>
    exact fun _ => .view_bind <| .ite (fun _ => (adds_bump _).bind fun _ _ =>
      (adds_array hrounds room _).bind fun _ _ => (ih _).bind fun _ _ => .pure rfl)
      fun _ => .pure rfl

theorem adds_arrayExpr (room : Bool) : (arrayExpr limits room).Adds 1 := fun _ =>
  .view_bind <| .ite (fun _ => .nodeOutcome <| (adds_array hrounds room _).bind fun _ _ =>
    (adds_arrayTail hrounds room _ _).bind fun _ _ => .pure rfl) fun _ => .pure rfl

section
variable {value : Rule Outcome} (hvalue : value.Adds 2)
include hvalue

/-- The name and the `=` of a pair pay for its value. -/
theorem adds_pair : (pair limits value).Adds 0 := by
  refine fun s => .view_bind <| .ite (fun hc => ?_) fun _ => .pure rfl
  have hne : s.current ≠ .eof := by
    rw [beq_iff_eq.1 hc]
    decide
  have hname : (node .fieldName bump).AddsAt s.opened (-1) :=
    .node (.mono (n := -2) (.bump hne) rfl)
  refine .view_bind <| .nodeOutcome <| hname.bind fun _ _ =>
    (Pays.eat (by decide)).bind (fun _ => (hvalue _).bind fun _ _ => ?_) fun _ => ?_
  · split
    · exact .pure rfl
    · exact .pure rfl
    · exact .raises_bind (raises_raiseMissingValue _) fun _ =>
        (adds_skipPair hrounds _).bind fun _ _ => .pure rfl
  · exact .raises_bind (raises_raiseExpected _) fun _ =>
      (adds_skipPair hrounds _).bind fun _ _ => .pure rfl

theorem adds_membersLoop (budget : Nat) (found : Bool) :
    (membersLoop limits value budget found).Adds 0 := by
  induction budget generalizing found with
  | zero => exact fun _ => .raises_bind (raises_raiseHere _) fun _ => .pure rfl
  | succ budget ih =>
    refine fun _ => .view_bind ?_
    split
    · exact .pure rfl
    · exact .pure rfl
    · refine (adds_pair hrounds hvalue _).bind fun _ _ => .view_bind ?_
      split
      · exact (adds_bump _).bind fun _ _ => (ih _ _).bind fun _ _ => .pure rfl
      · exact .pure rfl
      · exact .pure rfl
      · exact .raises_bind (raises_raiseExpected _) fun _ =>
          (adds_skipMembers hrounds _).bind fun _ _ => (ih _ _).bind fun _ _ => .pure rfl
    · exact .raises_bind (raises_raiseExpected _) fun _ =>
        (adds_skipMembers hrounds _).bind fun _ _ => (ih _ _).bind fun _ _ => .pure rfl

theorem adds_members : (members limits value).Adds 1 :=
  fun _ => .nodeOutcome (adds_membersLoop hrounds hvalue _ _ _)

/-- The opening brace pays for the node that holds the pairs. -/
theorem adds_body : (body limits value).Adds 0 := fun _ =>
  (Pays.expect (by decide)).bind (fun _ => .bind (n := 1) (.unlessAt
    (adds_members hrounds hvalue _).succeeds rfl) fun _ _ => (Pays.expect (by decide)).adds.bind
      fun _ _ => .pure rfl) fun _ => .pure rfl

end

variable {inner : Option Inner}
  (hinner : ∀ rules ∈ inner, rules.value.Adds 2 ∧ ∀ budget, (rules.links budget).Adds 0)
include hinner

theorem adds_object : (object limits inner).Adds 1 := by
  refine fun s => .view_bind <| .ite (fun hc => ?_) fun _ => .pure rfl
  split
  · next rules => exact .nodeOutcome (adds_body hrounds (hinner rules rfl).1 _)
  · refine (AddsAt.tooDeep hrounds fun heof => ?_).mono rfl
    rw [heof] at hc
    exact absurd hc (by decide)

theorem adds_operand : (operand limits inner).Adds 1 := by
  refine fun s => .view_bind ?_
  split
  · exact (adds_stringExpr _).succeeds
  · exact (adds_arrayExpr hrounds _ _).succeeds
  · exact (adds_object hrounds hinner _).succeeds
  · exact (adds_bump _).bind fun _ _ => .pure rfl

/-- The `+` in front of a tail pays for the nodes that the tail starts. -/
theorem adds_links (budget : Nat) : (links limits inner budget).Adds 0 := by
  cases budget with
  | zero => exact fun _ => .raises_bind (raises_raiseHere _) fun _ => .pure rfl
  | succ budget =>
    refine fun s => (adds_bump _).bind fun _ t => .view_bind <| .ite (fun htail => ?_)
      fun _ => .pure rfl
    have hne : t.current ≠ .eof := fun heof => by
      rw [State.atTail, heof] at htail
      cases htail
    refine .bump_bind hne fun _ => .view_bind <| .ite (fun _ => ?_) fun _ => ?_
    · split
      · next rules =>
        exact .bind (n := 2) (.node (.node ((hinner rules rfl).2 budget _))) fun _ _ =>
          .pure rfl
      · exact .raises_bind (raises_raiseHere _) fun _ => (adds_skipChain _).bind fun _ _ =>
          .pure rfl
    · exact .bind (n := 2) (.node (adds_operand hrounds hinner _)) fun _ _ => .pure rfl

theorem adds_variableRefExpr : (variableRefExpr limits inner).Adds 1 := fun _ =>
  .view_bind <| .ite (fun _ => .nodeOutcome (adds_links hrounds hinner _ _))
    fun _ => .pure rfl

theorem adds_value : (value limits inner).Adds 2 := fun _ =>
  .view_bind <| .ite (fun _ => .nodeOutcome <| .view_bind <|
    .ite (fun _ => (adds_variableRefExpr hrounds hinner _).succeeds)
      fun _ => adds_operand hrounds hinner _) fun _ => .pure rfl

end

theorem adds_innerAt (hrounds : limits.maxIterations ≠ 0) (room : Nat) :
    ∀ rules ∈ innerAt limits room, rules.value.Adds 2 ∧ ∀ budget, (rules.links budget).Adds 0 := by
  induction room with
  | zero => exact nofun
  | succ room ih =>
    rintro rules ⟨⟩
    exact ⟨adds_value hrounds ih, adds_links hrounds ih⟩

/-! ### Files -/

/-- A token that is taken out of the way pays for its error node. -/
theorem AddsAt.forceProgress {before : Nat} (h : s.position = before → s.current ≠ .eof) :
    (Rule.forceProgress before).AddsAt s 0 := by
  refine .view_bind <| .ite (fun hc => ?_) fun _ => .pure rfl
  have hne := h (beq_iff_eq.1 hc)
  refine .raises_bind (raises_raiseHere _) fun _ => .bind (n := -1) (.node ?_) fun _ _ =>
    .pure rfl
  exact .mono (n := -2) (.bump hne) rfl

section
variable (hrounds : limits.maxIterations ≠ 0) (room : Nat)
include hrounds

theorem adds_blueprint : (blueprint limits room).Adds 0 := by
  refine fun s => .view_bind <| .ite (fun hc => ?_) fun _ => .pure rfl
  have hne : s.current ≠ .eof := by
    rw [beq_iff_eq.1 hc]
    decide
  have hname : (node .blueprintType bump).AddsAt s.opened (-1) :=
    .node (.mono (n := -2) (.bump hne) rfl)
  exact .nodeOutcome <| hname.bind fun _ _ =>
    adds_body hrounds (adds_value hrounds (adds_innerAt hrounds room)) _

/-- The name and the operator of a variable pay for its value. -/
theorem adds_variableDef : (variableDef limits room).Adds 0 := by
  refine fun s => .view_bind <| .ite (fun hc => ?_) fun _ => .pure rfl
  have hne : s.opened.current ≠ .eof := by
    rw [show s.opened.current = .variableName from beq_iff_eq.1 hc]
    decide
  refine .view_bind <| .nodeOutcome <| .bump_bind hne fun _ => Pays.eatAssignment.bind
    (fun _ => (adds_value hrounds (adds_innerAt hrounds room) _).bind fun _ _ => ?_)
    fun _ => .raises_bind (raises_raiseExpected _) fun _ => .pure rfl
  split
  · exact .pure rfl
  · exact .pure rfl
  · exact .raises_bind (raises_raiseMissingValue _) fun _ => .pure rfl

theorem adds_item : (item limits room).Adds 0 := by
  refine fun _ => .view_bind ?_
  split
  · exact adds_blueprint hrounds room _
  · exact adds_variableDef hrounds room _
  · exact .pure rfl

theorem adds_itemOrSkip : (itemOrSkip limits room).Adds 0 := fun _ =>
  (adds_item hrounds room _).bind fun _ _ => .ite (fun _ => .pure rfl) fun _ =>
    .raises_bind (raises_raiseExpected _) fun _ => (adds_skipItem hrounds _).bind fun _ _ =>
      .pure rfl

theorem adds_items (budget : Nat) : (items limits room budget).Adds 0 := by
  induction budget with
  | zero =>
    exact fun _ => .view_bind <| .ite (fun _ => .pure rfl)
      fun _ => .of_raises (raises_raiseHere _) rfl
  | succ budget ih =>
    refine fun s => .view_bind <| .ite (fun _ => .pure rfl) fun hc => .view_bind ?_
    intro H
    refine (adds_itemOrSkip hrounds room s H).bind fun _ es t hr ht => ?_
    -- A round that took nothing leaves the state in front of the same token.
    have hforce : t.position = s.position → t.current ≠ .eof := fun hpos heof => hc <| by
      rw [H.atEof_iff, H.kinds_eq_nil_iff, ← hr.rest_eq_of_position H hpos]
      exact (hr.wf H).kinds_eq_nil_iff.1 ((hr.wf H).atEof_iff.1 (beq_iff_eq.2 heof))
    have hrest : AddsAt t 0 (forceProgress s.position >>= fun _ => items limits room budget) :=
      (AddsAt.forceProgress hforce).bind fun _ _ => ih _
    exact (hrest (hr.wf H)).mono fun _ _ _ _ hu => by omega

end

theorem adds_bumpAll (ts : List Token) : (bumpAll ts).Adds 0 := by
  induction ts with
  | nil => exact fun _ => .pure rfl
  | cons t ts ih => exact fun _ => (adds_bump _).bind fun _ _ => ih _

theorem adds_leftover : leftover.Adds 0 := by
  refine fun s => .view_bind <| .ite (fun _ => .pure rfl) fun hc => .view_bind ?_
  have hne : s.current ≠ .eof := fun heof => hc (beq_iff_eq.2 heof)
  refine .bind (n := -1) (.node ?_) fun _ _ => .pure rfl
  cases hrest : s.rest with
  | nil => exact fun H => absurd (beq_iff_eq.1 (H.atEof_iff.2 (H.kinds_eq_nil_iff.2 hrest))) hne
  | cons t ts => exact .bump_bind hne fun _ => adds_bumpAll _ _

/-- The contents of a file are paid for by its tokens. -/
theorem adds_contents (limits : Limits) (room : Nat) :
    (contents limits room limits.maxIterations).Adds 0 := by
  refine fun s => .bind (n := 0) ?_ fun _ _ => adds_leftover _
  by_cases hrounds : limits.maxIterations = 0
  · rw [hrounds]
    exact .view_bind <| .ite (fun _ => .pure rfl)
      fun _ => .of_raises (raises_raiseHere _) rfl
  · exact adds_items hrounds room _ s

end Rule

/-! ### Texts -/

/-- A text has no more tokens than bytes, and the end. -/
theorem length_tokenize_le_utf8ByteSize (source : String) :
    (tokenize source).length ≤ source.utf8ByteSize + 1 := by
  have hlen (ls : List Lexeme) (hne : ∀ l ∈ ls, l.chars ≠ []) :
      ls.length ≤ (ls.flatMap Lexeme.chars).length := by
    induction ls with
    | nil => exact Nat.le_refl _
    | cons l ls ih =>
      have hl := List.length_pos_iff.2 (hne l (.head _))
      have hls := ih fun l hl => hne l (.tail _ hl)
      rw [List.flatMap_cons, List.length_append, List.length_cons]
      omega
  have hscan := hlen (Lexeme.scan source.toList) fun _ => Lexeme.chars_ne_nil_of_mem_scan
  rw [Lexeme.flatMap_scan] at hscan
  rw [tokenize, TokenStream.toList, List.length_append, ← Text.byteLength_toList]
  apply Nat.add_le_add_right
  rw [TokenStream.ofChars, TokenStream.length_place]
  exact hscan.trans (Text.length_le_byteLength _)

/-- A tree has at most two nodes for each significant token of its text, and the root. -/
theorem length_cursors_le (source : String) (limits : Limits) :
    (parse source limits).tree.cursors.length ≤ 2 * (State.start source).kinds.length + 1 := by
  have H := State.wf_start source
  obtain ⟨hrun, hweight⟩ := Rule.adds_contents limits limits.maxDepth _ H
  have hids := congrArg List.length hrun.range_nodes_append_idsAll
  rw [List.length_append, List.length_range, List.length_range] at hids
  have hchildren : Element.idsAll (parse source limits).tree.root.children = Element.idsAll
      (Rule.contents limits limits.maxDepth limits.maxIterations (State.start source)).emitted := by
    change Element.idsAll (Rule.fileBody limits limits.maxDepth (State.start source)).emitted = _
    rw [Rule.fileBody_apply, Element.idsAll_append, Element.idsAll_append,
      Element.idsAll_map_token]
    exact List.append_nil _
  have hcursors := congrArg List.length (parse source limits).tree.map_id_cursors
  rw [List.length_map, Node.toElement, Element.ids, List.length_cons, hchildren] at hcursors
  have hstart : (State.start source).nodes = 1 := rfl
  rw [State.weight, State.weight] at hweight
  omega

/-- The tree of a text of `n` bytes has at most `n + 1` tokens and at most `2 * n + 1` nodes,
whatever the limits are. -/
theorem parse_sizes (source : String) (limits : Limits) :
    (parse source limits).tree.tokens.length ≤ source.utf8ByteSize + 1 ∧
      (parse source limits).tree.cursors.length ≤ 2 * source.utf8ByteSize + 1 := by
  have htokens := length_tokenize_le_utf8ByteSize source
  refine ⟨htokens, (length_cursors_le source limits).trans ?_⟩
  have hkinds := @Token.length_kindsOf_le (TokenStream.ofChars source.toList).body
  rw [tokenize, TokenStream.toList, List.length_append, List.length_singleton] at htokens
  rw [State.kinds_start]
  omega

/-- There can be more nodes than one for each byte and the root. -/
theorem parse_sizes_array :
    ¬(parse "x=[1]").tree.cursors.length ≤ "x=[1]".utf8ByteSize + 1 := by
  decide +kernel

end Blueprint
