import Blueprint.Proofs.Grammar.Fits
import Blueprint.Proofs.Tree.Shift

/-!
# Rules that mirror each other

Two rules mirror each other when from a state, and from the same state shifted, they give the same
value, emit the same elements and leave the same state, but for the shift. The first one raises no
error about a loop that takes too many rounds. What is shown of a loop is shown in front of fewer
than `n` tokens to come (`Rule.Mirrors`), so that the rounds of the loop can be counted against
them.
-/

namespace Blueprint

open Element Token

/-! ### Shifted states -/

namespace Shift

variable (d : Shift)

def state (s : State) : State where
  pending := s.pending.map d.token
  rest := s.rest.map d.token
  eof := d.token s.eof
  previous := s.previous.map d.span
  nodes := s.nodes + d.nodes
  raised := s.raised.map d.error

variable {s : State}

@[simp] theorem token_state (s : State) : (d.state s).token = d.token s.token := by
  simp only [State.token, state]
  cases s.rest <;> rfl

@[simp] theorem current_state (s : State) : (d.state s).current = s.current := by
  rw [State.current, token_state, kind_token, State.current]

@[simp] theorem atEof_state (s : State) : (d.state s).atEof = s.atEof := by
  rw [State.atEof, current_state, State.atEof]

@[simp] theorem kindsOf_map_token (ts : List Token) : kindsOf (ts.map d.token) = kindsOf ts := by
  simp only [kindsOf, List.filter_map, List.map_map]
  rfl

@[simp] theorem nth_state (s : State) (n : Nat) : (d.state s).nth n = s.nth n := by
  rw [State.nth_eq_getD, State.nth_eq_getD]
  exact congrArg (·.getD n .eof) (d.kindsOf_map_token s.rest)

@[simp] theorem atTail_state (s : State) : (d.state s).atTail = s.atTail := by
  simp only [State.atTail, current_state, nth_state]

@[simp] theorem atPairStart_state (s : State) : (d.state s).atPairStart = s.atPairStart := by
  simp only [State.atPairStart, current_state, nth_state]

@[simp] theorem afterWhitespace_state (s : State) :
    (d.state s).afterWhitespace = s.afterWhitespace := by
  simp only [State.afterWhitespace, state, List.any_map]
  rfl

theorem previousSpan_state (s : State) : (d.state s).previousSpan = d.span s.previousSpan := by
  rw [State.previousSpan, token_state, span_token, State.previousSpan]
  change (s.previous.map d.span).getD _ = _
  cases s.previous <;> rfl

theorem position_state (s : State) : (d.state s).position = s.position + d.index := by
  rw [State.position, token_state, index_token, State.position]

theorem opened_state (s : State) : (d.state s).opened = d.state s.opened := by
  simp only [State.opened, state, List.map_nil, Nat.add_right_comm]

theorem passed_state (s : State) (t : Token) (ts : List Token) :
    (d.state s).passed (d.token t) (ts.map d.token) = d.state (s.passed t ts) := by
  simp only [State.passed, State.load, state, List.takeWhile_map, List.dropWhile_map]
  rfl

theorem nodeSpan_state (s : State) (es : List Element) :
    (d.state s).nodeSpan (d.elements es) = d.span (s.nodeSpan es) := by
  have hhead : ((d.state s).unattached.headD (d.state s).eof) =
      d.token (s.unattached.headD s.eof) := by
    simp only [State.unattached, state]
    cases s.pending <;> cases s.rest <;> rfl
  rw [State.nodeSpan, State.nodeSpan, spanOver_elements, hhead, span_token, startOf_span]
  cases spanOver es <;> rfl

@[simp] theorem state_none (s : State) : none.state s = s := by
  have htokens (ts : List Token) : ts.map none.token = ts := List.map_id' ts
  have herrors (es : List SyntaxError) : es.map none.error = es := List.map_id' es
  have hprevious : s.previous.map none.span = s.previous := Option.map_id'
  simp only [state, htokens, herrors, hprevious]
  rfl

end Shift

/-- What a rule gives, with the numbers of nodes in it shifted. -/
class Numbered (α : Type) where
  renumber : Shift → α → α

export Numbered (renumber)

instance : Numbered Unit := ⟨fun _ a => a⟩

instance : Numbered Bool := ⟨fun _ a => a⟩

instance : Numbered Nat := ⟨fun d i => i + d.nodes⟩

instance : Numbered Outcome where
  renumber d
    | .complete i => .complete (i + d.nodes)
    | .incomplete i => .incomplete (i + d.nodes)
    | .noMatch => .noMatch

instance {α β : Type} [Numbered α] [Numbered β] : Numbered (α × β) :=
  ⟨fun d a => (renumber d a.1, renumber d a.2)⟩

@[simp] theorem Outcome.isMatch_renumber (d : Shift) (o : Outcome) :
    (renumber d o).isMatch = o.isMatch := by
  cases o <;> rfl

@[simp] theorem Outcome.isComplete_renumber (d : Shift) (o : Outcome) :
    (renumber d o).isComplete = o.isComplete := by
  cases o <;> rfl

theorem Outcome.renumber_ofNode (d : Shift) (i : Nat) (ok : Bool) :
    renumber d (Outcome.ofNode i ok) = .ofNode (i + d.nodes) ok := by
  cases ok <;> rfl

/-- No error says that a loop took too many rounds. -/
def State.Unstuck (s : State) : Prop := ∀ e ∈ s.raised, ∀ rule, e.problem ≠ .parserStuck rule

namespace Rule

variable {α β γ : Type} [Numbered α] [Numbered β] {d : Shift} {n : Nat} {s : State}

/-- From the state shifted, `r'` does what `r` does from the state itself, which raises no error
about a loop. -/
structure MirrorsAt (d : Shift) (r r' : Rule α) (s : State) : Prop where
  run : Run s (r s).emitted (r s).state
  reply_eq : r' (d.state s) =
    ⟨renumber d (r s).value, d.elements (r s).emitted, d.state (r s).state⟩
  unstuck : s.Unstuck → (r s).state.Unstuck

/-- The rules mirror each other wherever fewer than `n` tokens are to come. -/
def Mirrors (d : Shift) (n : Nat) (r r' : Rule α) : Prop :=
  ∀ ⦃s : State⦄, s.WF → s.kinds.length < n → r.MirrorsAt d r' s

/-! ### In front of one state -/

namespace MirrorsAt

variable {r r' : Rule α} {f f' : α → Rule β}

theorem pure {a a' : α} (h : a' = renumber d a) :
    MirrorsAt d (Pure.pure a : Rule α) (Pure.pure a') s :=
  ⟨.refl s, by rw [h]; rfl, id⟩

theorem bind {q : α → List Element → State → Prop} (h : r.MirrorsAt d r' s) (hq : r.Ensures s q)
    (hf : ∀ a es t, Run s es t → q a es t → (f a).MirrorsAt d (f' (renumber d a)) t) :
    (r >>= f).MirrorsAt d (r' >>= f') s := by
  have hf := hf _ _ _ h.run hq.2
  refine ⟨h.run.trans hf.run, ?_, fun hs => hf.unstuck (h.unstuck hs)⟩
  rw [bind_apply, h.reply_eq]
  simp only [hf.reply_eq, bind_apply, Shift.elements_append]

/-- After a rule that consumes a token, one token less is to come. -/
theorem bind_shorter (h : r.MirrorsAt d r' s) (H : s.WF) (hlen : s.kinds.length < n + 1)
    (hr : r.Ensures s fun _ _ t => t.kinds.length < s.kinds.length)
    (hf : ∀ a, Mirrors d n (f a) (f' (renumber d a))) : (r >>= f).MirrorsAt d (r' >>= f') s :=
  h.bind hr fun a _ _ hrun ht => hf a (hrun.wf H) (by omega)

theorem view_bind {g : State → γ} {f f' : γ → Rule α}
    (h : (f (g s)).MirrorsAt d (f' (g (d.state s))) s) :
    (view g >>= f).MirrorsAt d (view g >>= f') s := ⟨h.run, h.reply_eq, h.unstuck⟩

/-- What is looked at is the same in both states. -/
theorem look_bind {g g' : State → γ} {f f' : γ → Rule α} (hg : g' (d.state s) = g s)
    (h : (f (g s)).MirrorsAt d (f' (g s)) s) : (view g >>= f).MirrorsAt d (view g' >>= f') s := by
  refine ⟨h.run, ?_, h.unstuck⟩
  change f' (g' (d.state s)) (d.state s) = _
  rw [hg]
  exact h.reply_eq

theorem ite {c : Prop} [Decidable c] {r₂ r₂' : Rule α} (h : c → r.MirrorsAt d r' s)
    (h₂ : ¬c → r₂.MirrorsAt d r₂' s) :
    (if c then r else r₂).MirrorsAt d (if c then r' else r₂') s := by
  split
  · next hc => exact h hc
  · next hc => exact h₂ hc

theorem bump : MirrorsAt d Rule.bump Rule.bump s := by
  cases hs : s.rest with
  | nil =>
    have hs' : (d.state s).rest = [] := List.map_eq_nil_iff.2 hs
    constructor
    · rw [bump_nil hs]
      exact .refl s
    · rw [bump_nil hs, bump_nil hs']
      rfl
    · rw [bump_nil hs]
      exact id
  | cons t ts =>
    have hs' : (d.state s).rest = d.token t :: ts.map d.token := congrArg (List.map d.token) hs
    constructor
    · rw [bump_cons hs]
      exact .bump hs
    · rw [bump_cons hs, bump_cons hs', Shift.passed_state, Shift.elements_append,
        Shift.elements_map_token]
      rfl
    · rw [bump_cons hs]
      exact id

theorem raise {e e' : SyntaxError} (he : e' = d.error e)
    (h : ∀ rule, e.problem ≠ .parserStuck rule) :
    MirrorsAt d (Rule.raise e) (Rule.raise e') s := by
  subst he
  refine ⟨.raise s e, rfl, fun hs a ha => ?_⟩
  rcases List.mem_cons.1 ha with rfl | ha
  · exact h
  · exact hs a ha

theorem node {kind : NodeKind} (h : r.MirrorsAt d r' s.opened) :
    (Rule.node kind r).MirrorsAt d (Rule.node kind r') s := by
  constructor
  · rw [node_apply]
    exact .node kind h.run
  · rw [node_apply, node_apply, Shift.opened_state, h.reply_eq, Shift.elements_append,
      Shift.elements_map_token, Shift.nodeSpan_state]
    rfl
  · rw [node_apply]
    exact h.unstuck

end MirrorsAt

/-! ### Wherever few tokens are to come -/

namespace Mirrors

variable {r r' : Rule α} {f f' : α → Rule β}

theorem mono {m : Nat} (h : Mirrors d n r r') (hle : m ≤ n) : Mirrors d m r r' :=
  fun _ H hlen => h H (Nat.lt_of_lt_of_le hlen hle)

theorem pure {a a' : α} (h : a' = renumber d a) :
    Mirrors d n (Pure.pure a : Rule α) (Pure.pure a') := fun _ _ _ => .pure h

theorem bind (h : Mirrors d n r r') (hf : ∀ a, Mirrors d n (f a) (f' (renumber d a))) :
    Mirrors d n (r >>= f) (r' >>= f') := fun _ H hlen =>
  (h H hlen).bind (q := fun _ _ _ => True) ⟨(h H hlen).run, trivial⟩ fun a _ _ hrun _ =>
    hf a (hrun.wf H) (Nat.lt_of_le_of_lt hrun.kinds_suffix.length_le hlen)

theorem view_bind {g : State → γ} {f f' : γ → Rule α}
    (hf : ∀ s, Mirrors d n (f (g s)) (f' (g (d.state s)))) :
    Mirrors d n (view g >>= f) (view g >>= f') := fun s H hlen => .view_bind (hf s H hlen)

theorem look_bind {g g' : State → γ} {f f' : γ → Rule α} (hg : ∀ s, g' (d.state s) = g s)
    (hf : ∀ a, Mirrors d n (f a) (f' a)) : Mirrors d n (view g >>= f) (view g' >>= f') :=
  fun _ H hlen => .look_bind (hg _) (hf _ H hlen)

theorem ite {c : Prop} [Decidable c] {r₂ r₂' : Rule α} (h : Mirrors d n r r')
    (h₂ : Mirrors d n r₂ r₂') : Mirrors d n (if c then r else r₂) (if c then r' else r₂') :=
  fun _ H hlen => .ite (fun _ => h H hlen) fun _ => h₂ H hlen

theorem bump : Mirrors d n Rule.bump Rule.bump := fun _ _ _ => .bump

theorem raiseHere {problem : Problem} (h : ∀ rule, problem ≠ .parserStuck rule) :
    Mirrors d n (Rule.raiseHere problem) (Rule.raiseHere problem) := fun _ _ _ =>
  .view_bind (.raise (by rw [Shift.token_state]; rfl) h)

theorem raiseExpected (expected : List TokenKind) :
    Mirrors d n (Rule.raiseExpected expected) (Rule.raiseExpected expected) := by
  refine fun _ _ _ => .view_bind (.raise (by rw [Shift.token_state]; rfl) fun rule h => ?_)
  split at h
  · unfold Problem.lexical at h
    split at h <;> cases h
  · unfold Problem.unexpected at h
    split at h <;> cases h

theorem node {kind : NodeKind} (h : Mirrors d n r r') :
    Mirrors d n (Rule.node kind r) (Rule.node kind r') := fun _ H hlen => .node (h H.opened hlen)

theorem nodeOutcome {kind : NodeKind} {r r' : Rule Bool} (h : Mirrors d n r r') :
    Mirrors d n (Rule.nodeOutcome kind r) (Rule.nodeOutcome kind r') :=
  h.node.bind fun a => pure (Outcome.renumber_ofNode d a.1 a.2).symm

theorem succeeds {r r' : Rule Outcome} (h : Mirrors d n r r') :
    Mirrors d n r.succeeds r'.succeeds := h.bind fun o => pure (Outcome.isComplete_renumber d o)

theorem current_bind {f f' : TokenKind → Rule α} (hf : ∀ k, Mirrors d n (f k) (f' k)) :
    Mirrors d n (current >>= f) (current >>= f') := look_bind d.current_state hf

theorem isAt_bind {kind : TokenKind} {f f' : Bool → Rule α} (hf : ∀ b, Mirrors d n (f b) (f' b)) :
    Mirrors d n (isAt kind >>= f) (isAt kind >>= f') := look_bind (by simp) hf

theorem isAtAny_bind {kinds : List TokenKind} {f f' : Bool → Rule α}
    (hf : ∀ b, Mirrors d n (f b) (f' b)) :
    Mirrors d n (isAtAny kinds >>= f) (isAtAny kinds >>= f') :=
  look_bind (by simp) hf

theorem unlessAt {kinds : List TokenKind} {r r' : Rule Bool} (h : Mirrors d n r r') :
    Mirrors d n (Rule.unlessAt kinds r) (Rule.unlessAt kinds r') :=
  isAtAny_bind fun _ => ite (pure rfl) h

theorem eat (kind : TokenKind) : Mirrors d n (Rule.eat kind) (Rule.eat kind) :=
  isAt_bind fun _ => ite (bump.bind fun _ => pure rfl) (pure rfl)

theorem eatAssignment : Mirrors d n Rule.eatAssignment Rule.eatAssignment :=
  (eat _).bind fun _ => ite (pure rfl) (eat _)

theorem expect (kind : TokenKind) : Mirrors d n (Rule.expect kind) (Rule.expect kind) :=
  (eat _).bind fun _ => ite (pure rfl) ((raiseExpected _).bind fun _ => pure rfl)

/-- Loops mirror each other when they have a round for each token to come, and in each round
mirror each other as long as they do in what is left. -/
theorem loop {ι : Type} (body body' : Nat → ι → Rule α)
    (step : ∀ {m b b'}, m < n → (∀ i, Mirrors d m (body b i) (body' b' i)) → ∀ i ⦃s : State⦄,
      s.WF → s.kinds.length < m + 1 → (body (b + 1) i).MirrorsAt d (body' (b' + 1) i) s)
    {b b' : Nat} (hb : n ≤ b) (hb' : n ≤ b') (i : ι) : Mirrors d n (body b i) (body' b' i) := by
  have rounds : ∀ m ≤ n, ∀ b b', m ≤ b → m ≤ b' → ∀ i, Mirrors d m (body b i) (body' b' i) := by
    intro m
    induction m with
    | zero => exact fun _ _ _ _ _ _ _ _ hlen => absurd hlen (Nat.not_lt_zero _)
    | succ m ih =>
      intro hm b b' hb hb' i s H hlen
      obtain ⟨b, rfl⟩ := Nat.exists_eq_add_of_lt (Nat.lt_of_lt_of_le (Nat.zero_lt_succ m) hb)
      obtain ⟨b', rfl⟩ := Nat.exists_eq_add_of_lt (Nat.lt_of_lt_of_le (Nat.zero_lt_succ m) hb')
      exact step hm (ih (by omega) _ _ (by omega) (by omega)) i H hlen
  exact rounds n (Nat.le_refl n) b b' hb hb' i

end Mirrors

end Rule

end Blueprint
