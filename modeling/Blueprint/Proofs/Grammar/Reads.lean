import Blueprint.Proofs.Grammar.Fits

/-!
# Rules that read what is derived

The other direction: on tokens that the grammar derives, no rule raises an error. `r.Reads s rest`
says that `r` consumes the tokens of `s` up to `rest` and raises nothing on the way; `r.Gives p s
rest` says the same, and that the value of `r` satisfies `p`.
-/

namespace Blueprint

namespace Rule

variable {α β : Type}

/-- The rule consumes what stands in front of `rest` and raises nothing, and its value satisfies
`p`. -/
def Gives (r : Rule α) (p : α → Prop) (s : State) (rest : List TokenKind) : Prop :=
  r.Ensures s fun a _ t => p a ∧ t.kinds = rest ∧ t.raised = s.raised

/-- The rule consumes what stands in front of `rest` and raises nothing. -/
abbrev Reads (r : Rule α) (s : State) (rest : List TokenKind) : Prop :=
  r.Gives (fun _ => True) s rest

open Ensures

variable {limits : Limits} {s : State} {k : TokenKind} {mid rest : List TokenKind}

namespace Gives

variable {p : α → Prop} {r : Rule α}

theorem pure {a : α} (ha : p a) (h : s.kinds = rest) : (Pure.pure a : Rule α).Gives p s rest :=
  Ensures.pure ⟨ha, h, rfl⟩

theorem bind {q : β → Prop} {f : α → Rule β} (H : Ready limits s) (h : r.Gives p s mid)
    (hf : ∀ a t, p a → Ready limits t → t.kinds = mid → (f a).Gives q t rest) :
    (r >>= f).Gives q s rest :=
  Ensures.bind h fun a _ t hr ht =>
    (hf a t ht.1 (H.run hr) ht.2.1).mono fun _ _ _ _ hu => ⟨hu.1, hu.2.1, hu.2.2.trans ht.2.2⟩

theorem reads (h : r.Gives p s rest) : r.Reads s rest := h.mono fun _ _ _ _ ht => ⟨trivial, ht.2⟩

theorem eat (H : s.WF) (hk : s.kinds = k :: rest) : (eat k).Gives (· = true) s rest :=
  isAt_bind_of_kinds H hk <| .bind_pure <| (bump_takes H hk).mono
    fun _ _ _ _ ht => ⟨rfl, ht.kinds_eq_of hk, ht.raised_eq⟩

theorem expect (H : Ready limits s) (hk : s.kinds = k :: rest) :
    (expect k).Gives (· = true) s rest := by
  refine bind H (eat H.wf hk) fun ok t hok _ ht => ?_
  rw [hok]
  exact pure rfl ht

theorem nodeOutcome {body : Rule Bool} {kind : NodeKind} (h : body.Reads s.opened rest) :
    (Rule.nodeOutcome kind body).Gives (·.isMatch = true) s rest :=
  Ensures.nodeOutcome (h.mono fun ok _ _ _ ht => ⟨by cases ok <;> rfl, ht.2⟩)

end Gives

namespace Reads

variable {r : Rule α}

theorem pure {a : α} (h : s.kinds = rest) : (Pure.pure a : Rule α).Reads s rest :=
  Gives.pure trivial h

theorem bind {f : α → Rule β} (H : Ready limits s) (h : r.Reads s mid)
    (hf : ∀ a t, Ready limits t → t.kinds = mid → (f a).Reads t rest) :
    (r >>= f).Reads s rest := Gives.bind H h fun a t _ => hf a t

theorem bind_pure {g : α → β} (h : r.Reads s rest) :
    (r >>= fun a => (Pure.pure (g a) : Rule β)).Reads s rest := Ensures.bind_pure h

theorem bump (H : s.WF) (hk : s.kinds = k :: rest) : Rule.bump.Reads s rest :=
  (bump_takes H hk).mono fun _ _ _ _ ht => ⟨trivial, ht.kinds_eq_of hk, ht.raised_eq⟩

theorem node {body : Rule α} {kind : NodeKind} (h : body.Reads s.opened rest) :
    (Rule.node kind body).Reads s rest := Ensures.node h

theorem succeeds {r : Rule Outcome} (h : r.Reads s rest) : r.succeeds.Reads s rest :=
  Ensures.succeeds h

end Reads

end Rule

end Blueprint
