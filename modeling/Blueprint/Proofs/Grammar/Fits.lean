import Blueprint.Proofs.Grammar.Derives
import Blueprint.Proofs.Grammar.Ensures
import Blueprint.Proofs.Tree.Regular

/-!
# Runs that fit the grammar

`Fits depth above s es t` is a run below a node with the path `above` whose nodes all are in shape,
and whose tokens follow the grammar when it raises nothing. Runs that fit are put together like
runs are, up to one difference: to close a node, the word of its children must have the form of the
kind (`Fits.node`). An error node is never part of a run that fits on its own, only of one that
raises something before (`Fits.skip`).
-/

namespace Blueprint

open Element NodeKind

/-- What a child of a node stands for in the grammar, which has no nodes around the names of
modules and fields. -/
def Symbol.plain : Symbol → Symbol
  | .node .blueprintType => .token .blueprintTypeName
  | .node .fieldName => .token .fieldName
  | x => x

/-- What a child one level deeper starts with below a node of the kind. -/
def NodeKind.deeperStart : NodeKind → Option TokenKind
  | .value => some .objectStart
  | .arrayExpr => some .arrayStart
  | .variableRefExpr => some .variableValueRef
  | _ => none

/-- A node is in shape: its children have the form of its kind, its path is within the depth limit,
and an error in the place of a value, an array or a tail starts like a construct past that limit. -/
structure Shaped (depth : Nat) (kind : NodeKind) (above : List NodeKind) (word : List Symbol) :
    Prop where
  form : word ∈ kind.form.matches'
  levels_le : levels (kind :: above) ≤ depth
  tooDeep : kind = .error → ∀ k ∈ above.head?.bind deeperStart,
    word.head? = some (.token k) ∧ levels above = depth

/-- A run below `above` that keeps to the grammar, or raises an error. -/
structure Fits (depth : Nat) (above : List NodeKind) (s : State) (es : List Element) (t : State) :
    Prop where
  run : Run s es t
  shaped : Everywhere (Shaped depth) above es
  derives : t.raised = s.raised →
    ∃ w, s.kinds = w ++ t.kinds ∧ Derives depth above ((symbols es).map .plain) w
  regular : t.raised = s.raised → Regular Token.kind (fun _ => False) (sketches es)

/-- A run that skips tokens into an error node, or nothing at all. -/
structure Skips (depth : Nat) (above : List NodeKind) (s : State) (es : List Element) (t : State) :
    Prop where
  run : Run s es t
  shaped : Everywhere (Shaped depth) above es
  symbols_eq : symbols es = [] ∨ symbols es = [.node .error]

/-- A run that makes one node of the given kind. -/
structure Builds (depth : Nat) (kind : NodeKind) (above : List NodeKind) (s : State)
    (o : Outcome) (es : List Element) (t : State) : Prop where
  fits : Fits depth above s es t
  symbols_eq : symbols es = [.node kind]
  isMatch : o.isMatch = true

/-- A run that makes the children of a node of the given kind. -/
structure Fills (depth : Nat) (kind : NodeKind) (above : List NodeKind) (s : State)
    (es : List Element) (t : State) : Prop where
  fits : Fits depth (kind :: above) s es t
  form : symbols es ∈ kind.form.matches'
  production : t.raised = s.raised → (symbols es).map .plain ∈ kind.production.matches'

namespace Run

variable {s t u : State} {es fs : List Element}

/-- A run raises nothing when both of its parts raise nothing. -/
theorem raised_eq (H : Run s es t) (H' : Run t fs u) (h : u.raised = s.raised) :
    t.raised = s.raised ∧ u.raised = t.raised := by
  have hst := H.raised_suffix
  have htu := H'.raised_suffix
  rw [h] at htu ⊢
  have hts : t.raised = s.raised := htu.eq_of_length_le hst.length_le
  exact ⟨hts, hts.symm⟩

end Run

namespace Element

theorem symbols_pending {s : State} (H : s.WF) (e : Element) :
    symbols (s.pending.map .token ++ [e]) = symbols [e] := by
  rw [symbols_append, symbols_map_token H.isTrivia_pending, List.nil_append]

theorem sketches_pending {s : State} (H : s.WF) (e : Element) :
    sketches (s.pending.map .token ++ [e]) = sketches [e] := by
  rw [sketches_append, sketches_map_token, Token.significant_eq_nil H.isTrivia_pending]
  rfl

end Element

namespace Symbol

theorem plain_eq_self {x : Symbol} (h : x.plain ≠ .token .blueprintTypeName)
    (h' : x.plain ≠ .token .fieldName) : x.plain = x := by
  cases x with
  | token => rfl
  | node k =>
    cases k with
    | blueprintType => exact absurd rfl h
    | fieldName => exact absurd rfl h'
    | _ => rfl

/-- A pattern without names matches nothing that has nodes around names. -/
theorem map_plain_eq_self {p : Form} {w : List Symbol} (hw : w.map plain ∈ p.matches')
    (hp : .token .blueprintTypeName ∉ p.atoms) (hp' : .token .fieldName ∉ p.atoms) :
    w.map plain = w := by
  have hmem : ∀ x ∈ w, x.plain ∈ p.atoms := fun x hx =>
    Form.mem_atoms hw _ (List.mem_map_of_mem hx)
  refine (List.map_congr_left fun x hx => ?_).trans (List.map_id w)
  exact plain_eq_self (fun h => hp (h ▸ hmem x hx)) fun h => hp' (h ▸ hmem x hx)

end Symbol

/-- What has the form of a kind and follows the grammar is the whole of a node. -/
theorem NodeKind.mem_whole {kind : NodeKind} {w : List Symbol} (hform : w ∈ kind.form.matches')
    (hprod : w.map .plain ∈ kind.production.matches') : w ∈ kind.whole.matches' := by
  cases kind with
  | file =>
    obtain ⟨v, -, _, rfl, rfl⟩ := hform
    exact absurd (Form.mem_atoms hprod (.token .eof) (by simp [Symbol.plain])) (by decide)
  | blueprint =>
    obtain ⟨_, ⟨_, ⟨_, rfl, _, rfl, rfl⟩, m, hm, rfl⟩, c, hc, rfl⟩ := hform
    obtain ⟨_, ⟨_, ⟨_, rfl, _, rfl, rfl⟩, m', hm', rfl⟩, _, rfl, h⟩ := hprod
    rcases Form.mem_optional.1 hm with rfl | rfl <;> rcases Form.mem_optional.1 hc with rfl | rfl <;>
      rcases Form.mem_optional.1 hm' with rfl | rfl <;> first | decide | cases h
  | pair =>
    obtain ⟨_, ⟨_, rfl, _, rfl, rfl⟩, _, rfl, h⟩ := hprod
    rcases hform with ⟨_, ⟨_, rfl, _, rfl, rfl⟩, _, rfl, rfl⟩ |
      ⟨_, ⟨_, rfl, c, hc, rfl⟩, e, he, rfl⟩
    · decide
    · rcases Form.mem_optional.1 hc with rfl | rfl <;>
        rcases Form.mem_optional.1 he with rfl | rfl <;> cases h
  | blueprintType | fieldName | error => cases hprod
  | _ => exact Symbol.map_plain_eq_self hprod (by decide) (by decide) ▸ hprod

/-- A node that stands for a name is whole with the name. -/
theorem NodeKind.mem_whole_name {kind : NodeKind} {k : TokenKind}
    (hplain : Symbol.plain (.node kind) = .token k) : [.token k] ∈ kind.whole.matches' := by
  cases kind with
  | blueprintType | fieldName =>
    cases hplain
    rfl
  | _ => cases hplain

namespace Fits

variable {depth : Nat} {above : List NodeKind} {s t u : State} {es fs : List Element}

theorem refl (s : State) : Fits depth above s [] s :=
  ⟨.refl s, .nil, fun _ => ⟨[], rfl, .nil⟩, fun _ => .nil⟩

theorem append (H : Fits depth above s es t) (H' : Fits depth above t fs u) :
    Fits depth above s (es ++ fs) u := by
  refine ⟨H.run.trans H'.run, H.shaped.append H'.shaped, fun h => ?_, fun h => ?_⟩
  · obtain ⟨hst, htu⟩ := H.run.raised_eq H'.run h
    obtain ⟨v, hv, Hv⟩ := H.derives hst
    obtain ⟨w, hw, Hw⟩ := H'.derives htu
    rw [symbols_append, List.map_append, hv, hw]
    exact ⟨v ++ w, (List.append_assoc _ _ _).symm, Hv.append Hw⟩
  · obtain ⟨hst, htu⟩ := H.run.raised_eq H'.run h
    rw [sketches_append]
    exact (H.regular hst).append (H'.regular htu)

theorem raise (s : State) (e : SyntaxError) :
    Fits depth above s [] { s with raised := e :: s.raised } :=
  ⟨.raise s e, .nil, fun h => absurd h (List.cons_ne_self _ _), fun _ => .nil⟩

theorem skip (H : Fits depth above s es t) (hraised : t.raised ≠ s.raised)
    (H' : Skips depth above t fs u) : Fits depth above s (es ++ fs) u :=
  ⟨H.run.trans H'.run, H.shaped.append H'.shaped,
    fun h => absurd (H.run.raised_eq H'.run h).1 hraised,
    fun h => absurd (H.run.raised_eq H'.run h).1 hraised⟩

theorem bump (H : s.WF) {t : Token} {ts : List Token} (h : s.rest = t :: ts) :
    Fits depth above s (s.pending.map .token ++ [.token t]) (s.passed t ts) := by
  have ht := H.isTrivia_current t (by rw [h]; rfl)
  refine ⟨.bump h, (Everywhere.map_token _).append (.token .nil), fun _ => ⟨[t.kind], ?_, ?_⟩,
    fun _ => ?_⟩
  · rw [H.kinds_eq_cons h, State.kinds_passed, List.singleton_append]
  · rw [symbols_pending H, symbols_token ht]
    exact .token .nil
  · rw [sketches_pending H, sketches_token ht]
    exact .leaf .nil

/-- A node around a run that fills it. -/
theorem node {kind : NodeKind} (H : s.WF) (Hs : Fills depth kind above s.opened es t)
    (hplain : Symbol.plain (.node kind) = .node kind) (hkind : kind ≠ .error)
    (hlevels : levels (kind :: above) ≤ depth) :
    Fits depth above s (s.pending.map .token ++ [.node s.nodes kind (t.nodeSpan es) es]) t := by
  have hshaped : Shaped depth kind above (symbols es) :=
    ⟨Hs.form, hlevels, fun h => absurd h hkind⟩
  refine ⟨.node kind Hs.fits.run,
    (Everywhere.map_token _).append (.node hshaped Hs.fits.shaped .nil), fun h => ?_, fun h => ?_⟩
  · obtain ⟨w, hw, Hw⟩ := Hs.fits.derives h
    rw [symbols_pending H, symbols_node, List.map_singleton, hplain]
    exact ⟨w, hw, .single (Hs.production h) hlevels Hw⟩
  · rw [sketches_pending H, sketches_node]
    refine .node ?_ (Hs.fits.regular h) .nil
    rw [symbols_sketches]
    exact mem_whole Hs.form (Hs.production h)

end Fits

namespace Fills

variable {depth : Nat} {kind : NodeKind} {above : List NodeKind} {s t u : State}
  {es fs : List Element} {w : List Symbol}

theorem of_symbols (H : Fits depth (kind :: above) s es t) (hw : symbols es = w)
    (hform : w ∈ kind.form.matches')
    (hprod : t.raised = s.raised → w.map .plain ∈ kind.production.matches') :
    Fills depth kind above s es t :=
  ⟨H, hw ▸ hform, hw ▸ hprod⟩

/-- What the rest of a node is filled with, after `w`. -/
theorem prepend (H : Fits depth (kind :: above) s es t) (hw : symbols es = w)
    (H' : Fills depth kind above t fs u)
    (hform : ∀ v ∈ kind.form.matches', w ++ v ∈ kind.form.matches')
    (hprod : ∀ v ∈ kind.production.matches', w.map .plain ++ v ∈ kind.production.matches') :
    Fills depth kind above s (es ++ fs) u := by
  refine ⟨H.append H'.fits, ?_, fun h => ?_⟩
  · rw [symbols_append, hw]
    exact hform _ H'.form
  · rw [symbols_append, hw, List.map_append]
    exact hprod _ (H'.production (H.run.raised_eq H'.fits.run h).2)

end Fills

/-- The state is one between the tokens of a text that has no more of them than a loop has
rounds. -/
structure Ready (limits : Limits) (s : State) : Prop where
  wf : s.WF
  length_le : s.kinds.length ≤ limits.maxIterations

namespace Ready

variable {limits : Limits} {s t : State} {es : List Element}

theorem run (H : Ready limits s) (hr : Run s es t) : Ready limits t :=
  ⟨hr.wf H.wf, Nat.le_trans hr.kinds_suffix.length_le H.length_le⟩

theorem opened (H : Ready limits s) : Ready limits s.opened := ⟨H.wf.opened, H.length_le⟩

/-- A loop has a round for the current token. -/
theorem exists_maxIterations (H : Ready limits s) {k : TokenKind} {ks : List TokenKind}
    (h : s.kinds = k :: ks) : ∃ budget, limits.maxIterations = budget + 1 := by
  have hlen := H.length_le
  rw [h, List.length_cons] at hlen
  exact ⟨limits.maxIterations - 1, by omega⟩

end Ready

/-- A run that consumes one token of the given kind. -/
structure Takes (k : TokenKind) (s : State) (es : List Element) (t : State) : Prop where
  fits : ∀ {depth : Nat} {above : List NodeKind}, Fits depth above s es t
  symbols_eq : symbols es = [.token k]
  kinds_eq : s.kinds = k :: t.kinds
  raised_eq : t.raised = s.raised

/-- A run that raises an error and does nothing else. -/
structure Complains (s : State) (es : List Element) (t : State) : Prop where
  fits : ∀ {depth : Nat} {above : List NodeKind}, Fits depth above s es t
  emitted_eq : es = []
  kinds_eq : t.kinds = s.kinds
  raised_ne : t.raised ≠ s.raised

theorem Complains.symbols_eq {s t : State} {es : List Element} (H : Complains s es t) :
    symbols es = [] := by
  rw [H.emitted_eq]
  rfl

theorem Takes.kinds_eq_of {k k' : TokenKind} {s t : State} {es : List Element}
    {ks : List TokenKind} (H : Takes k s es t) (h : s.kinds = k' :: ks) : t.kinds = ks :=
  (List.cons.inj (H.kinds_eq.symm.trans h)).2

namespace Rule.Ensures

variable {α : Type} {depth : Nat} {above : List NodeKind} {s : State} {k : TokenKind}
  {f : Bool → Rule α} {q : α → List Element → State → Prop}

theorem bump_takes (H : s.WF) {ks : List TokenKind} (hk : s.kinds = k :: ks) :
    Rule.bump.Ensures s fun _ es t => Takes k s es t := by
  obtain ⟨t, ts, hr, hkind, htrivia, hts⟩ := H.exists_rest hk
  refine of_runs Runs.bump ?_
  rw [bump_cons hr]
  refine ⟨.bump H hr, ?_, ?_, rfl⟩
  · rw [symbols_pending H, symbols_token htrivia, hkind]
  · rw [State.kinds_passed, hts, hk]

theorem isAt_bind (h : s.current = k → (f true).Ensures s q)
    (h' : s.current ≠ k → (f false).Ensures s q) : (isAt k >>= f).Ensures s q := by
  refine view_bind ?_
  cases hk : s.current == k with
  | true => exact h (eq_of_beq hk)
  | false => exact h' (ne_of_beq_false hk)

theorem isAt_bind_of_kinds (H : s.WF) {ks : List TokenKind} (hk : s.kinds = k :: ks)
    (h : (f true).Ensures s q) : (isAt k >>= f).Ensures s q :=
  isAt_bind (fun _ => h) fun hc => absurd (H.current_of_kinds hk) hc

theorem eat_takes (H : s.WF) (hk : k ≠ .eof) :
    (eat k).Ensures s fun ok es t =>
      ok = true ∧ Takes k s es t ∨ ok = false ∧ s.current ≠ k ∧ es = [] ∧ t = s := by
  refine isAt_bind (fun hc => ?_) fun hc => .pure (.inr ⟨rfl, hc, rfl, rfl⟩)
  obtain ⟨ks, hs⟩ := H.exists_kinds hc hk
  exact .bind_pure ((bump_takes H hs).mono fun _ es t _ ht => .inl ⟨rfl, ht⟩)

theorem eat_bind (H : s.WF) (hk : k ≠ .eof)
    (h : ∀ es t, Run s es t → Takes k s es t →
      (f true).Ensures t fun b fs u => q b (es ++ fs) u)
    (h' : s.current ≠ k → (f false).Ensures s q) : (eat k >>= f).Ensures s q := by
  refine (eat_takes H hk).bind fun ok es t hr ht => ?_
  rcases ht with ⟨rfl, ht⟩ | ⟨rfl, hc, rfl, rfl⟩
  · exact h es t hr ht
  · exact h' hc

theorem raises_complains {r : Rule Unit} (hr : r.Raises) :
    r.Ensures s fun _ es t => Complains s es t :=
  of_raises hr fun e => ⟨.raise s e, rfl, rfl, List.cons_ne_self _ _⟩

/-- The token is there, or it is missed. -/
theorem expect_takes (H : s.WF) (hk : k ≠ .eof) :
    (expect k).Ensures s fun ok es t =>
      ok = true ∧ Takes k s es t ∨ s.current ≠ k ∧ Complains s es t := by
  refine eat_bind H hk (fun es t _ ht => .pure (.inl ⟨rfl, ?_⟩)) fun hc => .bind_pure ?_
  · rwa [List.append_nil]
  · exact (raises_complains (raises_raiseExpected _)).mono fun _ _ _ _ ht => .inr ⟨hc, ht⟩

theorem node_fits (kind : NodeKind) {body : Rule α} (H : s.WF)
    (h : body.Ensures s.opened fun _ es t => Fills depth kind above s.opened es t)
    (hplain : Symbol.plain (.node kind) = .node kind) (hkind : kind ≠ .error)
    (hlevels : levels (kind :: above) ≤ depth) :
    (Rule.node kind body).Ensures s fun _ es t =>
      Fits depth above s es t ∧ symbols es = [.node kind] :=
  node (h.mono fun _ _ _ _ hs => ⟨.node H hs hplain hkind hlevels, symbols_pending H _⟩)

theorem nodeOutcome_builds (kind : NodeKind) {body : Rule Bool} (H : s.WF)
    (h : body.Ensures s.opened fun _ es t => Fills depth kind above s.opened es t)
    (hplain : Symbol.plain (.node kind) = .node kind) (hkind : kind ≠ .error)
    (hlevels : levels (kind :: above) ≤ depth) :
    (Rule.nodeOutcome kind body).Ensures s (Builds depth kind above s) :=
  nodeOutcome (h.mono fun ok _ _ _ hs =>
    ⟨.node H hs hplain hkind hlevels, symbols_pending H _, by cases ok <;> rfl⟩)

/-- A node around a name stands for the name. -/
theorem node_bump_takes (kind : NodeKind) (H : s.WF) {ks : List TokenKind} (hk : s.kinds = k :: ks)
    (hplain : Symbol.plain (.node kind) = .token k) (hkind : kind ≠ .error)
    (hlevels : levels (kind :: above) ≤ depth) (hform : [.token k] ∈ kind.form.matches') :
    (Rule.node kind Rule.bump).Ensures s fun _ es t =>
      Fits depth above s es t ∧ symbols es = [.node kind] ∧ s.kinds = k :: t.kinds ∧
        t.raised = s.raised := by
  refine node ((bump_takes H.opened hk).mono fun _ es t hr ht => ⟨?_, symbols_pending H _,
    ht.kinds_eq, ht.raised_eq⟩)
  have hshaped : Shaped depth kind above (symbols es) :=
    ⟨ht.symbols_eq ▸ hform, hlevels, fun h => absurd h hkind⟩
  refine ⟨.node kind hr,
    (Everywhere.map_token _).append (.node hshaped ht.fits.shaped .nil), fun _ => ?_, fun _ => ?_⟩
  · rw [symbols_pending H, symbols_node, List.map_singleton, hplain]
    exact ⟨[k], ht.kinds_eq, .token .nil⟩
  · rw [sketches_pending H, sketches_node]
    have hfits : Fits depth above _ es t := ht.fits
    refine .node ?_ (hfits.regular ht.raised_eq) .nil
    rw [symbols_sketches, ht.symbols_eq]
    exact mem_whole_name hplain

end Rule.Ensures

end Blueprint
