import Blueprint.Proofs.Grammar.Places
import Blueprint.Proofs.Tree.Damage

/-!
# Rules that report the damage they leave

A rule reports when, wherever it leaves a node damaged, it has raised an error between the start of
the node and the token after it (`Rule.Reporting`). Rules that report are put together like runs
are; what takes an argument is a node of a kind that can be damaged (`nodeOutcome_reports`) and
skipping, which reports only after an error (`Rule.Skipping`).
-/

namespace Blueprint

open Element NodeKind

/-- An error on record starts at `start` or later, and not after the current token. -/
def State.Blames (start : Nat) (s : State) : Prop :=
  ∃ e ∈ s.raised, start ≤ e.span.start ∧ e.span.start ≤ s.token.span.start

/-- The state is one of a text with the tokens `ts`, and inside the pair that starts at `pair`. -/
structure Watched (ts : List Token) (pair : Option Nat) (s : State) : Prop where
  stands : ∃ p, s.Stands ts p
  pair_le : ∀ start ∈ pair, start ≤ s.token.span.start

namespace Watched

variable {ts : List Token} {pair : Option Nat} {s t : State} {es : List Element}

theorem wf (H : Watched ts pair s) : s.WF := H.stands.choose_spec.wf

theorem start_le (H : Watched ts pair s) (hr : Run s es t) :
    s.token.span.start ≤ t.token.span.start := H.stands.choose_spec.start_le hr

theorem run (H : Watched ts pair s) (hr : Run s es t) : Watched ts pair t := by
  obtain ⟨p, hp⟩ := H.stands
  obtain ⟨q, hq, -⟩ := hr.tiles hp
  exact ⟨⟨q, hq⟩, fun start h => Nat.le_trans (H.pair_le start h) (hp.start_le hr)⟩

/-- Inside a node that starts here. -/
theorem opened (H : Watched ts pair s) (kind : NodeKind) :
    Watched ts (if kind = .pair then some s.token.span.start else none) s.opened := by
  obtain ⟨p, hp⟩ := H.stands
  obtain ⟨q, hq, -⟩ := hp.opened
  refine ⟨⟨q, hq⟩, fun start h => ?_⟩
  split at h
  · cases h
    exact Nat.le_refl _
  · cases h

theorem getD_le (H : Watched ts pair s) : pair.getD s.token.span.start ≤ s.token.span.start := by
  cases pair with
  | none => exact Nat.le_refl _
  | some start => exact H.pair_le start rfl

end Watched

theorem State.Blames.run {ts : List Token} {pair : Option Nat} {start : Nat} {s t : State}
    {es : List Element} (h : s.Blames start) (H : Watched ts pair s) (hr : Run s es t) :
    t.Blames start := by
  obtain ⟨e, he, hstart, hstop⟩ := h
  exact ⟨e, hr.raised_suffix.mem he, hstart, Nat.le_trans hstop (H.start_le hr)⟩

theorem State.Blames.mono {start start' : Nat} {s : State} (h : s.Blames start)
    (hle : start' ≤ start) : s.Blames start' := by
  obtain ⟨e, he, hstart, hstop⟩ := h
  exact ⟨e, he, Nat.le_trans hle hstart, hstop⟩

theorem Blamed.mono {ts : List Token} {errors errors' : List SyntaxError} {start stop : Nat}
    (h : Blamed ts errors start stop) (hsub : ∀ e ∈ errors, e ∈ errors') :
    Blamed ts errors' start stop := by
  obtain ⟨t, ht, e, he, hle⟩ := h
  exact ⟨t, ht, e, hsub e he, hle⟩

/-- A run all of whose damage is reported. -/
def Reports (ts : List Token) (pair : Option Nat) (es : List Element) (t : State) : Prop :=
  Reported (Blamed ts t.raised) pair es

namespace Reports

variable {ts : List Token} {pair : Option Nat} {s t u : State} {es fs : List Element}

theorem append (H : Reports ts pair es t) (hr : Run t fs u) (H' : Reports ts pair fs u) :
    Reports ts pair (es ++ fs) u :=
  (H.mono fun _ _ h => h.mono fun _ he => hr.raised_suffix.mem he).append H'

/-- A node whose damage, if any, is blamed when it is done. -/
theorem node {kind : NodeKind} (H : Watched ts pair s) (hr : Run s.opened es t)
    (H' : Reports ts (if kind = .pair then some s.token.span.start else none) es t)
    (h : kind.Damaged (symbols es) →
      t.Blames (if kind = .error then pair.getD s.token.span.start else s.token.span.start)) :
    Reports ts pair (s.pending.map .token ++ [.node s.nodes kind (t.nodeSpan es) es]) t := by
  obtain ⟨p, hp⟩ := H.stands
  obtain ⟨q, hq, -⟩ := hp.opened
  obtain ⟨r, hr, hes⟩ := hr.tiles hq
  have hstart : s.token.span.start = (t.nodeSpan es).start := by
    rw [hr.nodeSpan_eq hes]
    exact hq.start_token_opened
  rw [hstart] at h H'
  refine (Reported.map_token _).append (.node (fun hd => ?_) H' .nil)
  obtain ⟨e, he, hle, hle'⟩ := h hd
  refine ⟨t.token, ?_, e, he, hle, hle'⟩
  rw [hr.nodeSpan_eq hes]
  exact hr.find?_next

end Reports

/-- A run that reports its damage, and has raised an error from `start` on if it makes no `x`. -/
structure Supplies (ts : List Token) (pair : Option Nat) (x : Symbol) (start : Nat)
    (es : List Element) (t : State) : Prop where
  reports : Reports ts pair es t
  mem_or_blames : x ∈ symbols es ∨ t.Blames start

theorem Supplies.prepend {ts : List Token} {pair : Option Nat} {x : Symbol} {start start' : Nat}
    {t u : State} {es fs : List Element} (H : Supplies ts pair x start' fs u)
    (hes : Reports ts pair es t) (hr : Run t fs u) (hle : start ≤ start') :
    Supplies ts pair x start (es ++ fs) u := by
  refine ⟨hes.append hr H.reports, ?_⟩
  rw [symbols_append]
  exact H.mem_or_blames.imp (List.mem_append_right _) (·.mono hle)

namespace Rule

variable {α β : Type}

/-- Wherever the rule runs, all damage that it leaves is reported. -/
def Reporting (r : Rule α) : Prop :=
  ∀ ⦃ts : List Token⦄ ⦃pair : Option Nat⦄ ⦃s : State⦄, Watched ts pair s →
    r.Ensures s fun _ es t => Reports ts pair es t

/-- The rule raises one error, which starts at `start` or later and not after the current token, and
does nothing else. -/
def RaisesFrom (start : Nat) (s : State) (r : Rule Unit) : Prop :=
  ∃ e, (start ≤ e.span.start ∧ e.span.start ≤ s.token.span.start) ∧
    r s = ⟨(), [], { s with raised := e :: s.raised }⟩

theorem RaisesFrom.mono {start start' : Nat} {s : State} {r : Rule Unit}
    (h : RaisesFrom start s r) (hle : start' ≤ start) : RaisesFrom start' s r := by
  obtain ⟨e, he, hr⟩ := h
  exact ⟨e, ⟨Nat.le_trans hle he.1, he.2⟩, hr⟩

theorem raisesFrom_raiseHere (problem : Problem) (s : State) :
    RaisesFrom s.token.span.start s (raiseHere problem) :=
  ⟨_, ⟨Nat.le_refl _, Nat.le_refl _⟩, rfl⟩

theorem raisesFrom_raiseExpected (expected : List TokenKind) (s : State) :
    RaisesFrom s.token.span.start s (raiseExpected expected) :=
  ⟨_, ⟨Nat.le_refl _, Nat.le_refl _⟩, rfl⟩

/-- A missing value is missed where its pair or variable starts. -/
theorem raisesFrom_raiseMissingValue {start : Span} {s : State}
    (hprevious : start.start ≤ s.previousSpan.start) (hle : start.start ≤ s.token.span.start) :
    RaisesFrom start.start s (raiseMissingValue start) := by
  cases h : s.current == TokenKind.error with
  | true =>
    simp only [RaisesFrom, raiseMissingValue, isAt, bind_apply, view_apply, h]
    exact ⟨_, ⟨hle, Nat.le_refl _⟩, rfl⟩
  | false =>
    simp only [RaisesFrom, raiseMissingValue, isAt, bind_apply, view_apply, h]
    have hstart : (start.merge s.previousSpan).start = start.start := Nat.min_eq_left hprevious
    exact ⟨⟨_, start.merge s.previousSpan⟩,
      ⟨Nat.le_of_eq hstart.symm, Nat.le_trans (Nat.le_of_eq hstart) hle⟩, rfl⟩

namespace Reporting

variable {r r' : Rule α}

theorem pure {a : α} : Reporting (Pure.pure a : Rule α) := fun _ _ _ _ => .pure .nil

theorem bind {f : α → Rule β} (h : r.Reporting) (hf : ∀ a, (f a).Reporting) :
    (r >>= f).Reporting := fun _ _ _ H =>
  (h H).bind fun a _ _ hr hes => (hf a (H.run hr)).mono fun _ _ _ hr' hfs => hes.append hr' hfs

theorem view {f : State → α} : Reporting (Rule.view f) := fun _ _ _ _ => .of_runs .view .nil

theorem ite {c : Prop} [Decidable c] (h : r.Reporting) (h' : r'.Reporting) :
    (if c then r else r').Reporting := fun _ _ _ H => .ite (fun _ => h H) fun _ => h' H

theorem raises {r : Rule Unit} (hr : r.Raises) : r.Reporting :=
  fun _ _ _ _ => .of_raises hr fun _ => .nil

theorem bump : Reporting Rule.bump := by
  intro ts pair s _
  refine .of_runs .bump ?_
  cases h : s.rest with
  | nil =>
    rw [bump_nil h]
    exact .nil
  | cons t ts =>
    rw [bump_cons h]
    exact (Reported.map_token _).append (.token .nil)

/-- A node of a kind that is never damaged. -/
theorem node {kind : NodeKind} (h : r.Reporting) (hkind : ∀ word, ¬kind.Damaged word) :
    (Rule.node kind r).Reporting := fun _ _ _ H =>
  .node ((h (H.opened kind)).mono fun _ _ _ hr hes => .node H hr hes fun hd => absurd hd (hkind _))

theorem nodeOutcome {kind : NodeKind} {r : Rule Bool} (h : r.Reporting)
    (hkind : ∀ word, ¬kind.Damaged word) : (Rule.nodeOutcome kind r).Reporting :=
  (h.node hkind).bind fun _ => pure

theorem succeeds {r : Rule Outcome} (h : r.Reporting) : r.succeeds.Reporting :=
  h.bind fun _ => pure

theorem unlessAt {kinds : List TokenKind} {r : Rule Bool} (h : r.Reporting) :
    (Rule.unlessAt kinds r).Reporting := view.bind fun _ => ite pure h

theorem eat (kind : TokenKind) : Reporting (Rule.eat kind) :=
  view.bind fun _ => ite (bump.bind fun _ => pure) pure

end Reporting

/-- Where an error was raised, all damage that the rule leaves is reported. -/
def Skipping (r : Rule α) : Prop :=
  ∀ ⦃ts : List Token⦄ ⦃pair : Option Nat⦄ ⦃s : State⦄, Watched ts pair s →
    s.Blames (pair.getD s.token.span.start) → r.Ensures s fun _ es t => Reports ts pair es t

namespace Skipping

/-- An error node right after an error. -/
theorem node {body : Rule α} (h : body.Reporting) : (Rule.node .error body).Skipping := by
  intro ts pair s H hs
  refine .node ((h (H.opened .error)).mono fun _ _ _ hr hes => .node H hr hes fun _ => ?_)
  have hs' : s.opened.Blames (pair.getD s.token.span.start) := hs
  exact hs'.run (H.opened .error) hr

theorem bind_pure {r : Rule α} {g : α → β} (h : r.Skipping) :
    (r >>= fun a => (Pure.pure (g a) : Rule β)).Skipping := fun _ _ _ H hs => (h H hs).bind_pure

end Skipping

variable {ts : List Token} {pair : Option Nat} {s : State}

theorem RaisesFrom.ensures {r : Rule Unit} {start : Nat} {q : Unit → List Element → State → Prop}
    (hr : RaisesFrom start s r)
    (h : ∀ t, Run s [] t → t.token = s.token → t.Blames start → q () [] t) : r.Ensures s q := by
  obtain ⟨e, he, hr⟩ := hr
  rw [Ensures, hr]
  exact ⟨.raise s e, h _ (.raise s e) rfl ⟨e, .head _, he⟩⟩

/-- What is done after an error knows about the error. -/
theorem raisesFrom_bind {r : Rule Unit} {f : Unit → Rule α} {start : Nat}
    {q : α → List Element → State → Prop} (hr : RaisesFrom start s r)
    (hf : ∀ t, Run s [] t → t.token = s.token → t.Blames start → (f ()).Ensures t q) :
    (r >>= f).Ensures s q := by
  have h : r.Ensures s fun _ es t => es = [] ∧ t.token = s.token ∧ t.Blames start :=
    hr.ensures fun _ _ htoken hblames => ⟨rfl, htoken, hblames⟩
  refine h.bind fun _ es t hrun ht => ?_
  obtain ⟨rfl, htoken, hblames⟩ := ht
  exact hf t hrun htoken hblames

/-- An error about the current token, then something that is skipped. -/
theorem reporting_recover {r : Rule Unit} {skip : Rule α} {next : α → Rule β}
    (hr : ∀ s : State, RaisesFrom s.token.span.start s r) (hskip : skip.Skipping)
    (hnext : ∀ a, (next a).Reporting) : Reporting (do r; next (← skip)) := by
  intro ts pair s H
  refine raisesFrom_bind (hr s) fun t hrun htoken hblames => ?_
  have Ht := H.run hrun
  have hblames' : t.Blames (pair.getD t.token.span.start) := hblames.mono (htoken ▸ Ht.getD_le)
  exact (hskip Ht hblames').bind fun a _ _ hr hes =>
    (hnext a (Ht.run hr)).mono fun _ _ _ hr' hfs => hes.append hr' hfs

/-- A node that is damaged unless it has an `x`. -/
theorem nodeOutcome_reports {kind : NodeKind} {body : Rule Bool} {x : Symbol}
    (H : Watched ts pair s) (hx : kind.essential = some x)
    (h : body.Ensures s.opened fun _ es t =>
      Supplies ts (if kind = .pair then some s.token.span.start else none) x s.token.span.start
        es t) :
    (nodeOutcome kind body).Ensures s fun _ es t => Reports ts pair es t := by
  refine .nodeOutcome (h.mono fun _ es t hr hes => .node H hr hes.reports fun hd => ?_)
  have hkind : kind ≠ .error := fun hkind => by
    rw [hkind] at hx
    cases hx
  rw [if_neg hkind]
  obtain ⟨y, hy, hmem⟩ := hd.resolve_left hkind
  rw [hx] at hy
  cases hy
  exact hes.mem_or_blames.resolve_left hmem

/-- A token that was consumed is the previous one. -/
theorem eat_previous {k : TokenKind} (H : Watched ts pair s) (hk : k ≠ .eof) :
    (eat k).Ensures s fun ok es t =>
      Reports ts pair es t ∧ (ok = true → t.previous = some s.token.span) := by
  refine .and (Reporting.eat k H) (Ensures.isAt_bind (fun hc => ?_) fun _ => .pure nofun)
  obtain ⟨ks, hks⟩ := H.wf.exists_kinds hc hk
  obtain ⟨t, us, hrest, -⟩ := H.wf.exists_rest hks
  refine .bind_pure (.of_runs .bump fun _ => ?_)
  rw [bump_cons hrest, State.token, hrest]
  rfl

/-- A token is there, or the error that it is not. -/
theorem expect_blames {k : TokenKind} (H : Watched ts pair s) (hk : k ≠ .eof) :
    (expect k).Ensures s fun ok es t => Supplies ts pair (.token k) s.token.span.start es t ∧
      (ok = false → t.Blames s.token.span.start) := by
  have hexpect : (expect k).Reporting := (Reporting.eat k).bind fun _ =>
    .ite .pure ((Reporting.raises (raises_raiseExpected _)).bind fun _ => .pure)
  have hmem : (expect k).Ensures s fun ok es t =>
      ok = true ∧ .token k ∈ symbols es ∨ t.Blames s.token.span.start := by
    refine Ensures.eat_bind H.wf hk (fun es t _ ht => .pure (.inl ⟨rfl, ?_⟩)) fun _ => ?_
    · rw [List.append_nil, ht.symbols_eq]
      exact .head _
    · exact raisesFrom_bind (raisesFrom_raiseExpected _ s) fun t _ _ hblames =>
        .pure (.inr hblames)
  refine ((hexpect H).and hmem).mono fun ok es t _ h => ⟨⟨h.1, h.2.imp_left And.right⟩, fun hok => ?_⟩
  exact h.2.resolve_left fun h' => Bool.false_ne_true (hok.symm.trans h'.1)

end Rule

end Blueprint
