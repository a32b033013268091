import Blueprint.Proofs.Grammar.InOrder
import Blueprint.Proofs.Grammar.Quiet

/-!
# Deeper limits

A depth limit that was not hit might as well have been higher, on broken texts too
(`parse_withMaxDepth`). An error about depth is never lost: it is raised right behind a token that
was consumed, where no earlier error starts, so it stays on record (`State.Candid`). And as long as
none is raised, a rule with more levels left does the same (`Rule.Deepens`), since nothing else in
the grammar looks at the levels that are left.
-/

namespace Blueprint

open Element

namespace SyntaxError

variable {e e' : SyntaxError} {es : List SyntaxError}

theorem mem_recorded_cons (h : e ∈ recorded es) : e ∈ recorded (e' :: es) := by
  rw [recorded]
  split
  · exact h
  · exact .tail _ h

/-- An error that starts behind all others stays on record. -/
theorem self_mem_recorded (h : ∀ e' ∈ es, e'.span.start < e.span.start) :
    e ∈ recorded (e :: es) := by
  rw [recorded]
  split
  · next hany =>
    rw [Option.any_eq_true] at hany
    obtain ⟨k, hk, hstart⟩ := hany
    have hmem : k ∈ es := (recorded_sublist es).mem (List.mem_of_mem_head? hk)
    exact absurd (eq_of_beq hstart) (Nat.ne_of_lt (h k hmem))
  · exact .head _

end SyntaxError

namespace State

/-- No error says that something lies too deep. -/
def Shallow (s : State) : Prop := ∀ e ∈ s.raised, ∀ limit, e.problem ≠ .nestingTooDeep limit

/-- Every error so far starts before the current token. -/
def Fresh (s : State) : Prop := ∀ e ∈ s.raised, e.span.start < s.token.span.start

/-- The state is one of a text with the tokens `ts`. No error starts after the current token, and
those about depth are all on record. -/
structure Candid (ts : List Token) (s : State) : Prop where
  stands : ∃ p, s.Stands ts p
  le_current : ∀ e ∈ s.raised, e.span.start ≤ s.token.span.start
  mem_recorded : ∀ e ∈ s.raised, ∀ limit, e.problem = .nestingTooDeep limit →
    e ∈ SyntaxError.recorded s.raised

theorem Shallow.of_run {s t : State} {es : List Element} (H : t.Shallow) (hr : Run s es t) :
    s.Shallow := fun e he => H e (hr.raised_suffix.mem he)

namespace Candid

variable {ts : List Token} {s t : State} {es : List Element}

theorem wf (H : s.Candid ts) : s.WF := H.stands.choose_spec.wf

theorem start_le (H : s.Candid ts) (hr : Run s es t) : s.token.span.start ≤ t.token.span.start :=
  H.stands.choose_spec.start_le hr

/-- A run that raises nothing. -/
theorem run (H : s.Candid ts) (hr : Run s es t) (hraised : t.raised = s.raised) : t.Candid ts := by
  obtain ⟨p, hp⟩ := H.stands
  obtain ⟨q, hq, -⟩ := hr.tiles hp
  refine ⟨⟨q, hq⟩, fun e he => ?_, ?_⟩
  · rw [hraised] at he
    exact Nat.le_trans (H.le_current e he) (hp.start_le hr)
  · rw [hraised]
    exact H.mem_recorded

theorem opened (H : s.Candid ts) : s.opened.Candid ts := by
  obtain ⟨p, hp⟩ := H.stands
  obtain ⟨q, hq, -⟩ := hp.opened
  exact ⟨⟨q, hq⟩, H.le_current, H.mem_recorded⟩

theorem raise (H : s.Candid ts) {e : SyntaxError} (hle : e.span.start ≤ s.token.span.start)
    (hdeep : ∀ limit, e.problem = .nestingTooDeep limit →
      e ∈ SyntaxError.recorded (e :: s.raised)) :
    ({ s with raised := e :: s.raised } : State).Candid ts := by
  obtain ⟨p, hp⟩ := H.stands
  refine ⟨⟨p, { hp with wf := hp.wf.raise e }⟩, ?_, ?_⟩
  · intro e' he'
    rcases List.mem_cons.1 he' with rfl | he'
    · exact hle
    · exact H.le_current e' he'
  · intro e' he' limit hlimit
    rcases List.mem_cons.1 he' with rfl | he'
    · exact hdeep limit hlimit
    · exact SyntaxError.mem_recorded_cons (H.mem_recorded e' he' limit hlimit)

/-- Behind a token that was consumed no error starts. -/
theorem fresh_passed (H : s.Candid ts) {u : Token} {us : List Token} (hrest : s.rest = u :: us) :
    (s.passed u us).Fresh := by
  obtain ⟨p, hp⟩ := H.stands
  obtain ⟨q, hq, -⟩ := hp.opened
  obtain ⟨r, htiles⟩ := hq.tiles
  have hunattached : s.opened.unattached = u :: (us ++ [s.eof]) := by
    rw [unattached, State.opened, List.nil_append, hrest]
    rfl
  have hne : u.chars ≠ [] := hp.chars_ne_nil u (by simp [hrest])
  have hlength : 0 < Text.byteLength u.chars :=
    Nat.lt_of_lt_of_le (List.length_pos_iff.2 hne) (Text.length_le_byteLength _)
  have htoken : s.token = u := by rw [State.token, hrest]; rfl
  rw [hunattached] at htiles
  cases htiles with
  | token hspan htiles =>
    -- the next token is one of those that stand behind `u`
    have hmem : (s.passed u us).token ∈ us ++ [s.eof] := by
      obtain ⟨vs, hvs⟩ := (s.passed u us).exists_token_cons
      have hsub : (s.passed u us).rest ++ [s.eof] <:+ us ++ [s.eof] :=
        (List.suffix_append_inj_of_length_eq rfl).2 ⟨s.rest_passed_suffix u us, rfl⟩
      exact hsub.mem (hvs ▸ .head _)
    intro e he
    have hle := H.le_current e he
    have hstart := htiles.le_start _ hmem
    rw [htoken, hspan] at hle
    rw [Position.offset_after] at hstart
    have hoffset : e.span.start ≤ q.offset := hle
    omega

end Candid

end State

namespace Rule

variable {α β γ : Type} {ts : List Token} {s : State}

/-- From `s` the rule `r'` does what `r` does, unless `r` raises an error about depth. -/
structure DeepensAt (ts : List Token) (r r' : Rule α) (s : State) : Prop where
  run : Run s (r s).emitted (r s).state
  candid : (r s).state.Candid ts
  reply_eq : (r s).state.Shallow → r' s = r s

/-- Wherever the rules run, `r'` does what `r` does, unless `r` raises an error about depth. -/
def Deepens (ts : List Token) (r r' : Rule α) : Prop :=
  ∀ ⦃s : State⦄, s.Candid ts → r.DeepensAt ts r' s

/-- Behind a token that was consumed, `r'` does what `r` does, unless `r` raises an error about
depth. -/
def DeepensBehind (ts : List Token) (r r' : Rule α) : Prop :=
  ∀ ⦃s : State⦄, s.Candid ts → s.Fresh → r.DeepensAt ts r' s

/-! ### In front of one state -/

namespace DeepensAt

variable {r r' : Rule α} {f f' : α → Rule β}

theorem ensures (h : r.DeepensAt ts r' s) : r.Ensures s fun _ _ t => t.Candid ts :=
  ⟨h.run, h.candid⟩

theorem pure {a : α} (H : s.Candid ts) : DeepensAt ts (Pure.pure a : Rule α) (Pure.pure a) s :=
  ⟨.refl s, H, fun _ => rfl⟩

theorem bind {q : α → List Element → State → Prop} (h : r.DeepensAt ts r' s) (hq : r.Ensures s q)
    (hf : ∀ a es t, Run s es t → t.Candid ts → q a es t → (f a).DeepensAt ts (f' a) t) :
    (r >>= f).DeepensAt ts (r' >>= f') s := by
  have hf := hf _ _ _ h.run h.candid hq.2
  refine ⟨h.run.trans hf.run, hf.candid, fun hs => ?_⟩
  rw [bind_apply, h.reply_eq (hs.of_run hf.run), hf.reply_eq hs]
  rfl

theorem bind_run (h : r.DeepensAt ts r' s)
    (hf : ∀ a es t, Run s es t → t.Candid ts → (f a).DeepensAt ts (f' a) t) :
    (r >>= f).DeepensAt ts (r' >>= f') s :=
  h.bind (q := fun _ _ _ => True) ⟨h.run, trivial⟩ fun a es t hr Ht _ => hf a es t hr Ht

theorem view_bind {g : State → γ} {f f' : γ → Rule α} (h : (f (g s)).DeepensAt ts (f' (g s)) s) :
    (view g >>= f).DeepensAt ts (view g >>= f') s := ⟨h.run, h.candid, h.reply_eq⟩

theorem ite {c : Prop} [Decidable c] {r₂ r₂' : Rule α} (h : c → r.DeepensAt ts r' s)
    (h₂ : ¬c → r₂.DeepensAt ts r₂' s) :
    (if c then r else r₂).DeepensAt ts (if c then r' else r₂') s := by
  split
  · next hc => exact h hc
  · next hc => exact h₂ hc

theorem quiet (H : s.Candid ts) (hruns : r.Runs) (hquiet : r.Quiet) : r.DeepensAt ts r s :=
  ⟨hruns s, H.run (hruns s) (hquiet s), fun _ => rfl⟩

/-- An error about something that is not the depth. -/
theorem raise (H : s.Candid ts) {e : SyntaxError} (hle : e.span.start ≤ s.token.span.start)
    (hdeep : ∀ limit, e.problem ≠ .nestingTooDeep limit) :
    DeepensAt ts (Rule.raise e) (Rule.raise e) s :=
  ⟨.raise s e, H.raise hle fun limit h => absurd h (hdeep limit), fun _ => rfl⟩

/-- An error about depth, and what is skipped after it. -/
theorem deep (H : s.Candid ts) (hfresh : s.Fresh) {limit : Nat} {next : Unit → Rule α}
    (hruns : ∀ a, (next a).Runs) (hquiet : ∀ a, (next a).Quiet) :
    (raiseHere (.nestingTooDeep limit) >>= next).DeepensAt ts r' s := by
  have hraise : (raiseHere (.nestingTooDeep limit)).Ensures s fun _ _ t =>
      t.Candid ts ∧ ¬t.Shallow := by
    apply Ensures.of_runs (Runs.inherited.raiseHere _)
    constructor
    · exact H.raise (Nat.le_refl _) fun _ _ => SyntaxError.self_mem_recorded hfresh
    · exact fun h => h _ (.head _) limit rfl
  have hnext : (raiseHere (.nestingTooDeep limit) >>= next).Ensures s fun _ _ t =>
      t.Candid ts ∧ ¬t.Shallow :=
    hraise.bind fun a _ t _ ht => .of_runs (hruns a) ⟨ht.1.run (hruns a t) (hquiet a t), fun h =>
      ht.2 (h.of_run (hruns a t))⟩
  exact ⟨hnext.1, hnext.2.1, fun h => absurd h hnext.2.2⟩

theorem node {kind : NodeKind} (h : r.DeepensAt ts r' s.opened) :
    (Rule.node kind r).DeepensAt ts (Rule.node kind r') s := by
  constructor
  · rw [node_apply]
    exact .node kind h.run
  · rw [node_apply]
    exact h.candid
  · rw [node_apply, node_apply]
    intro hs
    rw [h.reply_eq hs]

theorem nodeOutcome {kind : NodeKind} {r r' : Rule Bool} (h : r.DeepensAt ts r' s.opened) :
    (Rule.nodeOutcome kind r).DeepensAt ts (Rule.nodeOutcome kind r') s :=
  h.node.bind_run fun _ _ _ _ Ht => .pure Ht

end DeepensAt

/-! ### Wherever the rules run -/

namespace Deepens

variable {r r' : Rule α} {f f' : α → Rule β}

theorem behind (h : Deepens ts r r') : DeepensBehind ts r r' := fun _ H _ => h H

theorem pure {a : α} : Deepens ts (Pure.pure a : Rule α) (Pure.pure a) := fun _ H => .pure H

theorem bind (h : Deepens ts r r') (hf : ∀ a, Deepens ts (f a) (f' a)) :
    Deepens ts (r >>= f) (r' >>= f') := fun _ H => (h H).bind_run fun a _ _ _ Ht => hf a Ht

theorem view_bind {g : State → γ} {f f' : γ → Rule α} (hf : ∀ a, Deepens ts (f a) (f' a)) :
    Deepens ts (view g >>= f) (view g >>= f') := fun _ H => .view_bind (hf _ H)

theorem ite {c : Prop} [Decidable c] {r₂ r₂' : Rule α} (h : Deepens ts r r')
    (h₂ : Deepens ts r₂ r₂') : Deepens ts (if c then r else r₂) (if c then r' else r₂') :=
  fun _ H => .ite (fun _ => h H) fun _ => h₂ H

theorem quiet (hruns : r.Runs) (hquiet : r.Quiet) : Deepens ts r r :=
  fun _ H => .quiet H hruns hquiet

theorem bump : Deepens ts Rule.bump Rule.bump := quiet .bump .bump

theorem eat (kind : TokenKind) : Deepens ts (Rule.eat kind) (Rule.eat kind) :=
  quiet (Runs.inherited.eat kind) (Quiet.kept.eat kind)

theorem raiseHere {problem : Problem} (h : ∀ limit, problem ≠ .nestingTooDeep limit) :
    Deepens ts (Rule.raiseHere problem) (Rule.raiseHere problem) := fun _ H =>
  .view_bind (.raise H (Nat.le_refl _) h)

theorem raiseExpected (expected : List TokenKind) :
    Deepens ts (Rule.raiseExpected expected) (Rule.raiseExpected expected) := by
  intro s H
  apply DeepensAt.view_bind
  apply DeepensAt.raise H (Nat.le_refl _)
  intro limit h
  split at h
  · unfold Problem.lexical at h
    split at h <;> cases h
  · unfold Problem.unexpected at h
    split at h <;> cases h

theorem node {kind : NodeKind} (h : Deepens ts r r') :
    Deepens ts (Rule.node kind r) (Rule.node kind r') := fun _ H => .node (h H.opened)

theorem nodeOutcome {kind : NodeKind} {r r' : Rule Bool} (h : Deepens ts r r') :
    Deepens ts (Rule.nodeOutcome kind r) (Rule.nodeOutcome kind r') :=
  fun _ H => .nodeOutcome (h H.opened)

theorem succeeds {r r' : Rule Outcome} (h : Deepens ts r r') :
    Deepens ts r.succeeds r'.succeeds := h.bind fun _ => pure

theorem unlessAt {kinds : List TokenKind} {r r' : Rule Bool} (h : Deepens ts r r') :
    Deepens ts (Rule.unlessAt kinds r) (Rule.unlessAt kinds r') :=
  view_bind fun _ => ite pure h

theorem expect (kind : TokenKind) : Deepens ts (Rule.expect kind) (Rule.expect kind) :=
  (eat _).bind fun _ => ite pure ((raiseExpected _).bind fun _ => pure)

/-- Something about a current token, and then what is skipped. -/
theorem recover {expected : List TokenKind} {skip : Rule α} {next next' : α → Rule β}
    (hruns : skip.Runs) (hquiet : skip.Quiet) (hnext : ∀ a, Deepens ts (next a) (next' a)) :
    Deepens ts (do Rule.raiseExpected expected; next (← skip))
      (do Rule.raiseExpected expected; next' (← skip)) :=
  (raiseExpected _).bind fun _ => (quiet hruns hquiet).bind hnext

end Deepens

namespace DeepensBehind

variable {r r' : Rule α} {f f' : α → Rule β}

theorem bind (h : DeepensBehind ts r r') (hf : ∀ a, Deepens ts (f a) (f' a)) :
    DeepensBehind ts (r >>= f) (r' >>= f') := fun _ H hfresh =>
  (h H hfresh).bind_run fun a _ _ _ Ht => hf a Ht

theorem node {kind : NodeKind} (h : DeepensBehind ts r r') :
    DeepensBehind ts (Rule.node kind r) (Rule.node kind r') := fun _ H hfresh =>
  .node (h H.opened hfresh)

theorem nodeOutcome {kind : NodeKind} {r r' : Rule Bool} (h : DeepensBehind ts r r') :
    DeepensBehind ts (Rule.nodeOutcome kind r) (Rule.nodeOutcome kind r') :=
  fun _ H hfresh => .nodeOutcome (h H.opened hfresh)

theorem succeeds {r r' : Rule Outcome} (h : DeepensBehind ts r r') :
    DeepensBehind ts r.succeeds r'.succeeds := h.bind fun _ => .pure

end DeepensBehind

/-- Consuming a token leads behind it. -/
theorem bump_fresh (H : s.Candid ts) (hs : s.current ≠ .eof) :
    bump.Ensures s fun _ _ t => t.Fresh := by
  obtain ⟨ks, hks⟩ := H.wf.exists_kinds rfl hs
  obtain ⟨u, us, hrest, -⟩ := H.wf.exists_rest hks
  apply Ensures.of_runs .bump
  rw [bump_cons hrest]
  exact H.fresh_passed hrest

theorem DeepensAt.bump_bind {f f' : Unit → Rule α} (H : s.Candid ts) (hs : s.current ≠ .eof)
    (hf : ∀ a, DeepensBehind ts (f a) (f' a)) :
    (Rule.bump >>= f).DeepensAt ts (Rule.bump >>= f') s :=
  (Deepens.bump H).bind (bump_fresh H hs) fun a _ _ _ Ht hfresh => hf a Ht hfresh

end Rule

end Blueprint
