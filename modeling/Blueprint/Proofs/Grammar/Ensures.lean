import Blueprint.Proofs.Grammar.State

/-!
# What a rule ensures

`r.Ensures s q` says that `q` holds of the value, the emitted elements and the state that `r` leaves
when it runs from `s`. Its lemmas follow the shape of a rule, one for each way to put rules
together, so that a proof about a rule reads along the rule and never looks at replies. The run
from `s` comes along with `q`.
-/

namespace Blueprint

open Token

namespace Rule

variable {α β : Type}

/-- The rule runs from `s` to a reply that satisfies `q`. -/
def Ensures (r : Rule α) (s : State) (q : α → List Element → State → Prop) : Prop :=
  Run s (r s).emitted (r s).state ∧ q (r s).value (r s).emitted (r s).state

/-- The rule raises one error and does nothing else. -/
def Raises (r : Rule Unit) : Prop :=
  ∀ s, ∃ e, r s = ⟨(), [], { s with raised := e :: s.raised }⟩

theorem raises_raiseHere (problem : Problem) : (raiseHere problem).Raises := fun _ => ⟨_, rfl⟩

theorem raises_raiseExpected (expected : List TokenKind) : (raiseExpected expected).Raises :=
  fun _ => ⟨_, rfl⟩

theorem raises_raiseMissingValue (start : Span) : (raiseMissingValue start).Raises := by
  intro s
  cases h : s.current == TokenKind.error <;>
    simp only [raiseMissingValue, isAt, bind_apply, view_apply, h] <;> exact ⟨_, rfl⟩

namespace Ensures

variable {r r' : Rule α} {s : State} {q q' : α → List Element → State → Prop}

theorem of_runs (h : r.Runs) (hq : q (r s).value (r s).emitted (r s).state) : r.Ensures s q :=
  ⟨h s, hq⟩

theorem and (h : r.Ensures s q) (h' : r.Ensures s q') :
    r.Ensures s fun a es t => q a es t ∧ q' a es t :=
  ⟨h.1, h.2, h'.2⟩

theorem mono (h : r.Ensures s q) (hq : ∀ a es t, Run s es t → q a es t → q' a es t) :
    r.Ensures s q' :=
  ⟨h.1, hq _ _ _ h.1 h.2⟩

theorem pure {a : α} (h : q a [] s) : (Pure.pure a : Rule α).Ensures s q := ⟨.refl s, h⟩

theorem bind {f : α → Rule β} {q' : β → List Element → State → Prop} (h : r.Ensures s q)
    (hf : ∀ a es t, Run s es t → q a es t →
      (f a).Ensures t fun b fs u => q' b (es ++ fs) u) : (r >>= f).Ensures s q' :=
  have h' := hf _ _ _ h.1 h.2
  ⟨h.1.trans h'.1, h'.2⟩

/-- What is done with a value in the end does not matter to the run. -/
theorem bind_pure {g : α → β} {q' : β → List Element → State → Prop}
    (h : r.Ensures s fun a es t => q' (g a) es t) :
    (r >>= fun a => (Pure.pure (g a) : Rule β)).Ensures s q' := by
  refine h.bind fun a es t _ hq => pure ?_
  rwa [List.append_nil]

theorem view_bind {g : State → α} {f : α → Rule β} {q' : β → List Element → State → Prop}
    (h : (f (g s)).Ensures s q') : (Rule.view g >>= f).Ensures s q' := h

theorem ite {c : Prop} [Decidable c] (h : c → r.Ensures s q) (h' : ¬c → r'.Ensures s q) :
    (if c then r else r').Ensures s q := by
  split
  · exact h ‹_›
  · exact h' ‹_›

theorem of_raises {r : Rule Unit} {q : Unit → List Element → State → Prop} (hr : r.Raises)
    (h : ∀ e, q () [] { s with raised := e :: s.raised }) : r.Ensures s q := by
  obtain ⟨e, he⟩ := hr s
  rw [Ensures, he]
  exact ⟨.raise s e, h e⟩

theorem node {kind : NodeKind} {body : Rule α} {q : Nat × α → List Element → State → Prop}
    (h : body.Ensures s.opened fun a es t => q (s.nodes, a)
      (s.pending.map .token ++ [.node s.nodes kind (t.nodeSpan es) es]) t) :
    (Rule.node kind body).Ensures s q := by
  rw [Ensures, node_apply]
  exact ⟨.node kind h.1, h.2⟩

theorem nodeOutcome {kind : NodeKind} {body : Rule Bool}
    {q : Outcome → List Element → State → Prop}
    (h : body.Ensures s.opened fun ok es t => q (.ofNode s.nodes ok)
      (s.pending.map .token ++ [.node s.nodes kind (t.nodeSpan es) es]) t) :
    (Rule.nodeOutcome kind body).Ensures s q := (node h).bind_pure

theorem succeeds {r : Rule Outcome} {q : Bool → List Element → State → Prop}
    (h : r.Ensures s fun o es t => q o.isComplete es t) : r.succeeds.Ensures s q := h.bind_pure

theorem unlessAt {kinds : List TokenKind} {r : Rule Bool} {q : Bool → List Element → State → Prop}
    (h : s.current ∈ kinds → q true [] s) (h' : s.current ∉ kinds → r.Ensures s q) :
    (Rule.unlessAt kinds r).Ensures s q :=
  view_bind (.ite (fun hc => pure (h (List.contains_iff_mem.1 hc))) fun hc =>
    h' fun hm => hc (List.contains_iff_mem.2 hm))

end Ensures

/-! ### The tokens that are left over -/

theorem rest_bumpAll (ts : List Token) {s : State} (h : s.rest.length ≤ ts.length) :
    (bumpAll ts s).state.rest = [] := by
  induction ts generalizing s with
  | nil => exact List.eq_nil_of_length_eq_zero (Nat.le_zero.1 h)
  | cons t ts ih =>
    refine ih ?_
    cases hr : s.rest with
    | nil => rw [bump_nil hr, hr]; exact Nat.zero_le _
    | cons u us =>
      rw [bump_cons hr]
      rw [hr, List.length_cons, List.length_cons] at h
      exact Nat.le_trans (s.rest_passed_suffix u us).length_le (Nat.le_of_succ_le_succ h)

/-- No token is left once the leftover tokens are in their node. -/
theorem leftover_ensures {s : State} (H : s.WF) : leftover.Ensures s fun _ _ t => t.rest = [] := by
  refine .view_bind <| .ite (fun h => .pure (H.kinds_eq_nil_iff.1 (H.atEof_iff.1 h))) fun _ => ?_
  refine .view_bind <| .bind_pure (.node (.of_runs (Runs.inherited.bumpAll _) ?_))
  exact rest_bumpAll _ (Nat.le_refl _)

end Rule

end Blueprint
