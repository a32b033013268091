import Blueprint.Grammar.File

/-!
# What rules are made of

Every rule is put together from a few parts: it looks at the state, consumes a token, raises an error
or starts a node around another rule. A property that the parts have, and that stays where one comes
after the other, is one of the whole grammar, whatever the limits are (`Rule.Inherited`). When errors
are left out it still is one of the rules that skip (`Rule.Kept`).
-/

namespace Blueprint.Rule

/-- The parts that raise nothing have the property, and so has what is put together from them.
Nothing is said of pairs. -/
structure Kept (P : ∀ {α : Type}, Rule α → Prop) : Prop where
  pure {α : Type} (a : α) : P (Pure.pure a : Rule α)
  view {α : Type} (f : State → α) : P (Rule.view f)
  bump : P Rule.bump
  bind {α β : Type} {r : Rule α} {f : α → Rule β} : P r → (∀ a, P (f a)) → P (r >>= f)
  node {α : Type} {kind : NodeKind} {r : Rule α} : kind ≠ .pair → P r → P (Rule.node kind r)

/-- Errors have the property as well, and so have pairs, which start with a name. -/
structure Inherited (P : ∀ {α : Type}, Rule α → Prop) : Prop extends Kept P where
  raise (e : SyntaxError) : P (Rule.raise e)
  pair {α : Type} {f : Nat × Unit → Rule α} : (∀ a, P (f a)) →
    P (Rule.node .pair (Rule.node .fieldName Rule.bump >>= f))

variable {P : ∀ {α : Type}, Rule α → Prop} {α β : Type} {r r' : Rule α} (limits : Limits)

/-! ### Parts that raise nothing -/

namespace Kept

theorem ite (_ : Kept P) {c : Prop} [Decidable c] (h : P r) (h' : P r') :
    P (if c then r else r') := by
  split
  · exact h
  · exact h'

variable (C : Kept P)
include C

theorem view_bind {g : State → α} {f : α → Rule β} (h : ∀ a, P (f a)) : P (Rule.view g >>= f) :=
  C.bind (C.view g) h

theorem bump_bind {f : Unit → Rule β} (h : P (f ())) : P (Rule.bump >>= f) :=
  C.bind C.bump fun _ => h

theorem bind_pure {g : α → β} (h : P r) : P (r >>= fun a => (Pure.pure (g a) : Rule β)) :=
  C.bind h fun _ => C.pure _

theorem nodeOutcome {kind : NodeKind} {r : Rule Bool} (hkind : kind ≠ .pair) (h : P r) :
    P (Rule.nodeOutcome kind r) := C.bind_pure (C.node hkind h)

theorem succeeds {r : Rule Outcome} (h : P r) : P r.succeeds := C.bind_pure h

theorem unlessAt {kinds : List TokenKind} {r : Rule Bool} (h : P r) : P (Rule.unlessAt kinds r) :=
  C.view_bind fun _ => C.ite (C.pure _) h

theorem eat (kind : TokenKind) : P (Rule.eat kind) :=
  C.view_bind fun _ => C.ite (C.bump_bind (C.pure _)) (C.pure _)

theorem eatAssignment : P Rule.eatAssignment :=
  C.bind (C.eat _) fun _ => C.ite (C.pure _) (C.eat _)

theorem skipLoop (stop : State → Bool) (budget depth : Nat) :
    P (Rule.skipLoop stop budget depth) := by
  induction budget generalizing depth with
  | zero => exact C.pure _
  | succ budget ih =>
    exact C.view_bind fun _ => C.ite (C.pure _) (C.view_bind fun _ => C.bump_bind (ih _))

theorem skipUntil (stop : State → Bool) : P (Rule.skipUntil limits stop) :=
  C.view_bind fun _ => C.ite (C.pure _) (C.bind_pure (C.node (by decide) (C.skipLoop _ _ _)))

theorem bumpGroup (budget depth : Nat) : P (Rule.bumpGroup budget depth) := by
  induction budget generalizing depth with
  | zero => exact C.pure _
  | succ budget ih =>
    exact C.view_bind fun _ => C.ite (C.pure _) <| C.view_bind fun _ =>
      C.bump_bind (C.ite (C.pure _) (ih _))

theorem skipGroup : P (Rule.skipGroup limits) :=
  C.bind_pure (C.node (by decide) (C.bumpGroup _ _))

theorem bumpChain (budget : Nat) : P (Rule.bumpChain limits budget) := by
  induction budget with
  | zero => exact C.pure _
  | succ budget ih =>
    refine C.view_bind fun _ => C.ite (C.pure _) (C.bind (C.bumpGroup _ _) fun _ => ?_)
    exact C.view_bind fun _ => C.ite (C.bump_bind ih) (C.pure _)

theorem skipChain : P (Rule.skipChain limits) :=
  C.bind_pure (C.node (by decide) (C.bumpChain _ _))

theorem bumpAll (ts : List Token) : P (Rule.bumpAll ts) := by
  induction ts with
  | nil => exact C.pure _
  | cons t ts ih => exact C.bump_bind ih

theorem leftover : P Rule.leftover :=
  C.view_bind fun _ => C.ite (C.pure _) <| C.view_bind fun _ =>
    C.bind_pure (C.node (by decide) (C.bumpAll _))

end Kept

/-! ### The grammar -/

namespace Inherited

variable (I : Inherited P)
include I

theorem raiseHere (problem : Problem) : P (Rule.raiseHere problem) :=
  I.view_bind fun _ => I.raise _

theorem raiseExpected (expected : List TokenKind) : P (Rule.raiseExpected expected) :=
  I.view_bind fun _ => I.raise _

theorem expect (kind : TokenKind) : P (Rule.expect kind) :=
  I.bind (I.eat _) fun _ => I.ite (I.pure _) (I.bind_pure (I.raiseExpected _))

/-- An error about the current token, then something that is skipped. -/
theorem recover {expected : List TokenKind} {stop : State → Bool} {next : Rule α} (h : P next) :
    P (do
      Rule.raiseExpected expected
      let _ ← Rule.skipUntil limits stop
      next) :=
  I.bind (I.raiseExpected _) fun _ => I.bind (I.skipUntil limits _) fun _ => h

theorem tooDeep : P (Rule.tooDeep limits) :=
  I.bind (I.raiseHere _) fun _ => I.bind_pure (I.skipGroup limits)

theorem raiseMissingValue (start : Span) : P (Rule.raiseMissingValue start) :=
  I.view_bind fun _ => I.ite (I.raiseExpected _) (I.view_bind fun _ => I.raise _)

theorem stringTail (budget : Nat) : P (Rule.stringTail budget) := by
  induction budget with
  | zero => exact I.view_bind fun _ => I.ite (I.raiseHere _) (I.pure _)
  | succ budget ih =>
    exact I.view_bind fun _ => I.ite (I.bump_bind (I.bump_bind ih)) (I.pure _)

theorem stringExpr : P (Rule.stringExpr limits) :=
  I.view_bind fun _ => I.ite (I.nodeOutcome (by decide) <| I.bump_bind <|
    I.bind_pure (I.stringTail _)) (I.pure _)

theorem arrayElement : P Rule.arrayElement :=
  I.view_bind fun _ => I.ite (I.nodeOutcome (by decide) (I.bump_bind (I.pure _))) (I.pure _)

theorem elementsLoop (budget : Nat) : P (Rule.elementsLoop limits budget) := by
  induction budget with
  | zero => exact I.bind_pure (I.raiseHere _)
  | succ budget ih =>
    refine I.bind I.arrayElement fun _ => I.ite (I.recover limits (I.pure _)) <|
      I.view_bind fun kind => ?_
    split
    · exact I.bump_bind (I.view_bind fun _ => I.ite (I.pure _) ih)
    · exact I.pure _
    · exact I.pure _
    · exact I.recover limits (I.pure _)

theorem elements : P (Rule.elements limits) := I.nodeOutcome (by decide) (I.elementsLoop limits _)

theorem arrayBody : P (Rule.arrayBody limits) :=
  I.bump_bind <| I.bind (I.unlessAt (I.succeeds (I.elements limits))) fun _ =>
    I.bind_pure (I.expect _)

theorem array (room : Bool) : P (Rule.array limits room) :=
  I.view_bind fun _ => I.ite (I.pure _)
    (I.ite (I.nodeOutcome (by decide) (I.arrayBody limits)) (I.tooDeep limits))

theorem arrayTail (room : Bool) (budget : Nat) : P (Rule.arrayTail limits room budget) := by
  induction budget with
  | zero => exact I.view_bind fun _ => I.ite (I.bind_pure (I.raiseHere _)) (I.pure _)
  | succ budget ih =>
    exact I.view_bind fun _ => I.ite (I.bump_bind <| I.bind (I.array limits _) fun _ =>
      I.bind_pure ih) (I.pure _)

theorem arrayExpr (room : Bool) : P (Rule.arrayExpr limits room) :=
  I.view_bind fun _ => I.ite (I.nodeOutcome (by decide) <| I.bind (I.array limits _) fun _ =>
    I.bind_pure (I.arrayTail limits _ _)) (I.pure _)

section
variable {value : Rule Outcome} (hvalue : P value)
include hvalue

/-- What stands after an assignment: a value, or the error that there is none. -/
theorem assigned (start : Span) {next : Rule Bool} (hnext : P next) : P (do
    match ← value with
    | .complete _ => return true
    | .incomplete _ => return false
    | .noMatch =>
      Rule.raiseMissingValue start
      next) := by
  refine I.bind hvalue fun o => ?_
  cases o with
  | complete => exact I.pure _
  | incomplete => exact I.pure _
  | noMatch => exact I.bind (I.raiseMissingValue _) fun _ => hnext

theorem pairOf : P (Rule.pair limits value) := by
  have hskip : P (do
      let _ ← skipPair limits
      return false) := I.bind_pure (I.skipUntil limits _)
  refine I.view_bind fun _ => I.ite (I.view_bind fun start => I.bind_pure (I.pair fun _ => ?_))
    (I.pure _)
  exact I.bind (I.eat _) fun _ => I.ite (I.assigned hvalue start hskip)
    (I.bind (I.raiseExpected _) fun _ => hskip)

theorem membersLoop (budget : Nat) (found : Bool) :
    P (Rule.membersLoop limits value budget found) := by
  induction budget generalizing found with
  | zero => exact I.bind_pure (I.raiseHere _)
  | succ budget ih =>
    refine I.view_bind fun _ => ?_
    split
    · exact I.pure _
    · exact I.pure _
    · refine I.bind (I.pairOf limits hvalue) fun _ => I.view_bind fun _ => ?_
      split
      · exact I.bump_bind (I.bind_pure (ih _))
      · exact I.pure _
      · exact I.pure _
      · exact I.recover limits (I.bind_pure (ih _))
    · exact I.recover limits (I.bind_pure (ih _))

theorem members : P (Rule.members limits value) :=
  I.nodeOutcome (by decide) (I.membersLoop limits hvalue _ _)

theorem body : P (Rule.body limits value) :=
  I.bind (I.expect _) fun _ => I.ite (I.bind (I.unlessAt (I.succeeds (I.members limits hvalue)))
    fun _ => I.bind_pure (I.expect _)) (I.pure _)

end

section
variable {inner : Option Inner}
  (hinner : ∀ rules ∈ inner, P rules.value ∧ ∀ budget, P (rules.links budget))
include hinner

theorem object : P (Rule.object limits inner) := by
  refine I.view_bind fun _ => I.ite ?_ (I.pure _)
  split
  · next rules => exact I.nodeOutcome (by decide) (I.body limits (hinner rules rfl).1)
  · exact I.tooDeep limits

theorem operand : P (Rule.operand limits inner) := by
  refine I.view_bind fun _ => ?_
  split
  · exact I.succeeds (I.stringExpr limits)
  · exact I.succeeds (I.arrayExpr limits _)
  · exact I.succeeds (I.object limits hinner)
  · exact I.bump_bind (I.pure _)

theorem links (budget : Nat) : P (Rule.links limits inner budget) := by
  cases budget with
  | zero => exact I.bind_pure (I.raiseHere _)
  | succ budget =>
    refine I.bump_bind <| I.view_bind fun _ => I.ite (I.bump_bind ?_) (I.pure _)
    refine I.view_bind fun _ => I.ite ?_ (I.bind_pure (I.node (by decide) (I.operand limits hinner)))
    split
    · next rules =>
      have hlinks : P (Rule.node .variableRefExpr (rules.links budget)) :=
        I.node (by decide) ((hinner rules rfl).2 budget)
      exact I.bind_pure (I.node (by decide) hlinks)
    · exact I.bind (I.raiseHere _) fun _ => I.bind_pure (I.skipChain limits)

theorem variableRefExpr : P (Rule.variableRefExpr limits inner) :=
  I.view_bind fun _ => I.ite (I.nodeOutcome (by decide) (I.links limits hinner _)) (I.pure _)

theorem value : P (Rule.value limits inner) :=
  I.view_bind fun _ => I.ite (I.nodeOutcome (by decide) <| I.view_bind fun _ =>
    I.ite (I.succeeds (I.variableRefExpr limits hinner)) (I.operand limits hinner)) (I.pure _)

end

theorem innerAt (room : Nat) :
    ∀ rules ∈ Blueprint.innerAt limits room, P rules.value ∧ ∀ budget, P (rules.links budget) := by
  induction room with
  | zero => exact nofun
  | succ room ih =>
    rintro rules ⟨⟩
    exact ⟨I.value limits ih, I.links limits ih⟩

variable (room : Nat)

theorem value_innerAt : P (Rule.value limits (Blueprint.innerAt limits room)) :=
  I.value limits (I.innerAt limits room)

theorem blueprint : P (Rule.blueprint limits room) :=
  I.view_bind fun _ => I.ite (I.nodeOutcome (by decide) <| I.bind (I.node (by decide) I.bump)
    fun _ => I.body limits (I.value_innerAt limits room)) (I.pure _)

theorem variableDef : P (Rule.variableDef limits room) := by
  refine I.view_bind fun _ => I.ite (I.view_bind fun start => ?_) (I.pure _)
  refine I.nodeOutcome (by decide) <| I.bump_bind <| I.bind I.eatAssignment fun _ => I.ite ?_
    (I.bind_pure (I.raiseExpected _))
  exact I.assigned (I.value_innerAt limits room) start (I.pure _)

theorem item : P (Rule.item limits room) := by
  refine I.view_bind fun _ => ?_
  split
  · exact I.blueprint limits room
  · exact I.variableDef limits room
  · exact I.pure _

theorem itemOrSkip : P (Rule.itemOrSkip limits room) :=
  I.bind (I.item limits room) fun _ => I.ite (I.pure _) (I.recover limits (I.pure _))

theorem forceProgress (before : Nat) : P (Rule.forceProgress before) :=
  I.view_bind fun _ => I.ite (I.bind (I.raiseHere _) fun _ =>
    I.bind_pure (I.node (by decide) I.bump)) (I.pure _)

theorem items (budget : Nat) : P (Rule.items limits room budget) := by
  induction budget with
  | zero => exact I.view_bind fun _ => I.ite (I.pure _) (I.raiseHere _)
  | succ budget ih =>
    exact I.view_bind fun _ => I.ite (I.pure _) <| I.view_bind fun _ =>
      I.bind (I.itemOrSkip limits room) fun _ => I.bind (I.forceProgress _) fun _ => ih

end Inherited

end Blueprint.Rule
