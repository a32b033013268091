import Blueprint.Proofs.Grammar.Fits
import Blueprint.Proofs.Tree.Sketch

/-!
# Rules that agree

Two states are alike when the same words come next. Two rules agree when, as long as the first one
raises nothing, they do the same from states that are alike: the second one raises nothing either,
they give the same value and emit the same but for trivia and places. A rule that agrees with itself
cannot tell apart texts that differ in layout, except to say where an error is.
-/

namespace Blueprint

open Element Token

/-- The same words come next in both states, and the next node has the same number. -/
structure Alike (s s' : State) : Prop where
  wf : s.WF
  wf' : s'.WF
  words_eq : words s.rest = words s'.rest
  nodes_eq : s.nodes = s'.nodes

namespace Alike

variable {s s' : State} {t t' : Token} {ts ts' : List Token}

theorem kinds_eq (H : Alike s s') : s.kinds = s'.kinds := by
  simp only [State.kinds, kindsOf_eq_map_words, H.words_eq]

theorem current_eq (H : Alike s s') : s.current = s'.current := by
  rw [H.wf.current_eq_headD, H.wf'.current_eq_headD, H.kinds_eq]

theorem nth_eq (H : Alike s s') (n : Nat) : s.nth n = s'.nth n := by
  rw [State.nth_eq_getD, State.nth_eq_getD, H.kinds_eq]

theorem atEof_eq (H : Alike s s') : s.atEof = s'.atEof := by
  rw [State.atEof, State.atEof, H.current_eq]

theorem atTail_eq (H : Alike s s') : s.atTail = s'.atTail := by
  rw [State.atTail, State.atTail, H.current_eq, H.nth_eq]

theorem opened (H : Alike s s') : Alike s.opened s'.opened :=
  ⟨H.wf.opened, H.wf'.opened, H.words_eq, congrArg (· + 1) H.nodes_eq⟩

/-- Both states are at the end, or have tokens that are the same word next. -/
theorem rest_cases (H : Alike s s') : (s.rest = [] ∧ s'.rest = []) ∨
    ∃ t ts t' ts', s.rest = t :: ts ∧ s'.rest = t' :: ts' ∧ t.word = t'.word ∧
      words ts = words ts' := by
  have hwords := H.words_eq
  cases hs : s.rest with
  | nil =>
    have hkinds := H.kinds_eq
    rw [H.wf.kinds_eq_nil_iff.2 hs] at hkinds
    exact .inl ⟨rfl, H.wf'.kinds_eq_nil_iff.1 hkinds.symm⟩
  | cons t ts =>
    obtain ⟨t', ts', hs', -, ht', -⟩ := H.wf'.exists_rest (H.kinds_eq ▸ H.wf.kinds_eq_cons hs)
    have ht := H.wf.isTrivia_current t (by rw [hs]; rfl)
    rw [hs, hs', words_cons ht, words_cons ht', List.cons.injEq] at hwords
    exact .inr ⟨t, ts, t', ts', rfl, hs', hwords⟩

theorem passed (H : Alike s s') (hs : s.rest = t :: ts) (hs' : s'.rest = t' :: ts')
    (h : words ts = words ts') : Alike (s.passed t ts) (s'.passed t' ts') := by
  refine ⟨H.wf.passed hs, H.wf'.passed hs', ?_, H.nodes_eq⟩
  simpa only [State.passed, State.load, words, significant_dropWhile] using h

end Alike

/-- What a rule leaves in two states: the same but for trivia and places, and no error. -/
structure SameReply {α : Type} (s s' : State) (a a' : Reply α) : Prop where
  value_eq : a'.value = a.value
  plain_eq : plain a'.emitted = plain a.emitted
  raised_eq : a'.state.raised = s'.raised
  alike : Alike a.state a'.state

namespace Rule

variable {α β : Type}

/-- From states that are alike both rules do the same, unless the first one raises an error. -/
structure Agrees (r r' : Rule α) : Prop where
  runs : r.Runs
  same : ∀ {s s'}, Alike s s' → (r s).state.raised = s.raised → SameReply s s' (r s) (r' s')

theorem Raises.runs {r : Rule Unit} (hr : r.Raises) : r.Runs := by
  intro s
  obtain ⟨e, he⟩ := hr s
  rw [he]
  exact .raise s e

namespace Agrees

variable {r r' : Rule α} {f f' : α → Rule β}

theorem pure {a : α} : Agrees (Pure.pure a : Rule α) (Pure.pure a) :=
  ⟨.pure, fun H _ => ⟨rfl, rfl, rfl, H⟩⟩

theorem bind (h : Agrees r r') (hf : ∀ a, Agrees (f a) (f' a)) : Agrees (r >>= f) (r' >>= f') := by
  refine ⟨h.runs.bind fun a => (hf a).runs, fun {s s'} H hraised => ?_⟩
  obtain ⟨hst, htu⟩ := (h.runs s).raised_eq ((hf _).runs _) hraised
  have hr := h.same H hst
  have hf := (hf (r s).value).same hr.alike htu
  rw [← hr.value_eq] at hf
  refine ⟨?_, ?_, hf.raised_eq.trans hr.raised_eq, ?_⟩
  · rw [bind_apply, bind_apply, hf.value_eq, hr.value_eq]
  · rw [bind_apply, bind_apply, plain_append, plain_append, hf.plain_eq, hr.plain_eq,
      hr.value_eq]
  · rw [bind_apply, bind_apply, ← hr.value_eq]
    exact hf.alike

/-- What is looked at is the same in states that are alike. -/
theorem view_bind {g : State → α} (hg : ∀ {s s'}, Alike s s' → g s = g s')
    (hf : ∀ a, Agrees (f a) (f' a)) : Agrees (view g >>= f) (view g >>= f') := by
  refine bind ⟨.view, fun H _ => ⟨(hg H).symm, rfl, rfl, H⟩⟩ hf

/-- What is looked at differs, and it does not matter. -/
theorem view_bind_any {g g' : State → α} (hf : ∀ a a', Agrees (f a) (f' a')) :
    Agrees (view g >>= f) (view g' >>= f') := by
  refine ⟨Runs.view.bind fun a => (hf a a).runs, fun {s s'} H hraised => ?_⟩
  exact (hf (g s) (g' s')).same H hraised

theorem ite {c : Prop} [Decidable c] {r₂ r₂' : Rule α} (h : Agrees r r') (h₂ : Agrees r₂ r₂') :
    Agrees (if c then r else r₂) (if c then r' else r₂') := by
  split
  · exact h
  · exact h₂

/-- After an error nothing is said any more. -/
theorem raises_bind {r : Rule Unit} {f : Unit → Rule α} {r' : Rule α} (hr : r.Raises)
    (hf : (f ()).Runs) : Agrees (r >>= f) r' := by
  refine ⟨hr.runs.bind fun _ => hf, fun {s s'} _ hraised => ?_⟩
  obtain ⟨e, he⟩ := hr s
  have h := ((hr.runs s).raised_eq (hf _) hraised).1
  rw [he] at h
  exact absurd h (List.cons_ne_self _ _)

theorem raises {r r' : Rule Unit} (hr : r.Raises) : Agrees r r' := by
  refine ⟨hr.runs, fun {s s'} _ hraised => ?_⟩
  obtain ⟨e, he⟩ := hr s
  rw [he] at hraised
  exact absurd hraised (List.cons_ne_self _ _)

theorem bump : Agrees Rule.bump Rule.bump := by
  refine ⟨.bump, fun {s s'} H _ => ?_⟩
  rcases H.rest_cases with ⟨hs, hs'⟩ | ⟨t, ts, t', ts', hs, hs', hword, hwords⟩
  · rw [bump_nil hs, bump_nil hs']
    exact ⟨rfl, rfl, rfl, H⟩
  · have ht := H.wf.isTrivia_current t (by rw [hs]; rfl)
    have ht' := H.wf'.isTrivia_current t' (by rw [hs']; rfl)
    rw [bump_cons hs, bump_cons hs']
    refine ⟨rfl, ?_, rfl, H.passed hs hs' hwords⟩
    rw [plain_append, plain_append, plain_trivia H.wf.isTrivia_pending,
      plain_trivia H.wf'.isTrivia_pending, plain_token ht, plain_token ht', hword]

theorem node {kind : NodeKind} (h : Agrees r r') :
    Agrees (Rule.node kind r) (Rule.node kind r') := by
  refine ⟨h.runs.node, fun {s s'} H hraised => ?_⟩
  rw [node_apply] at hraised
  have hr := h.same H.opened hraised
  rw [node_apply, node_apply]
  refine ⟨?_, ?_, hr.raised_eq, hr.alike⟩
  · rw [hr.value_eq, H.nodes_eq]
  · rw [plain_append, plain_append, plain_trivia H.wf.isTrivia_pending,
      plain_trivia H.wf'.isTrivia_pending, plain_node, plain_node, hr.plain_eq]

theorem nodeOutcome {kind : NodeKind} {r r' : Rule Bool} (h : Agrees r r') :
    Agrees (Rule.nodeOutcome kind r) (Rule.nodeOutcome kind r') := h.node.bind fun _ => pure

theorem succeeds {r r' : Rule Outcome} (h : Agrees r r') : Agrees r.succeeds r'.succeeds :=
  h.bind fun _ => pure

theorem current_bind {f f' : TokenKind → Rule α} (hf : ∀ a, Agrees (f a) (f' a)) :
    Agrees (current >>= f) (current >>= f') := view_bind Alike.current_eq hf

theorem isAt_bind {kind : TokenKind} {f f' : Bool → Rule α} (hf : ∀ a, Agrees (f a) (f' a)) :
    Agrees (isAt kind >>= f) (isAt kind >>= f') :=
  view_bind (fun H => by rw [H.current_eq]) hf

theorem isAtAny_bind {kinds : List TokenKind} {f f' : Bool → Rule α}
    (hf : ∀ a, Agrees (f a) (f' a)) : Agrees (isAtAny kinds >>= f) (isAtAny kinds >>= f') :=
  view_bind (fun H => by rw [H.current_eq]) hf

/-- A look at the current token and the one after it. -/
theorem isAtTwo_bind {k k' : TokenKind} {f f' : Bool → Rule α} (hf : ∀ a, Agrees (f a) (f' a)) :
    Agrees (view (fun s => s.current == k && s.nth 1 == k') >>= f)
      (view (fun s => s.current == k && s.nth 1 == k') >>= f') :=
  view_bind (fun H => by rw [H.current_eq, H.nth_eq]) hf

theorem unlessAt {kinds : List TokenKind} {r r' : Rule Bool} (h : Agrees r r') :
    Agrees (Rule.unlessAt kinds r) (Rule.unlessAt kinds r') :=
  isAtAny_bind fun _ => .ite pure h

theorem eat (kind : TokenKind) : Agrees (Rule.eat kind) (Rule.eat kind) :=
  isAt_bind fun _ => .ite (bump.bind fun _ => pure) pure

end Agrees

end Rule

end Blueprint
