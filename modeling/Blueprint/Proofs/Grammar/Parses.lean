import Blueprint.Proofs.Grammar.Reads.Array
import Blueprint.Proofs.Tree.Cut

/-!
# Rules that parse a forest

`r.Parses S above xs rest p`: where the leaves of the forest `xs` come next, and `rest` after them,
`r` builds what the depth limit leaves of `xs` below `above`, raises the errors about it and stops
in front of `rest`. No state is mentioned in a proof that a rule parses something; what a rule looks
at is read off the leaves.
-/

namespace Blueprint

open Element Token

/-- A text that is parsed: its tokens, the limits, and what is bad in it. -/
structure Script where
  limits : Limits
  tokens : List Token
  bad : Sketch Token → Prop

/-- The state is one in the text, and every loop has a round for each token to come. -/
structure Reading (S : Script) (s : State) : Prop where
  ready : Ready S.limits s
  suffix : s.unattached <:+ S.tokens

namespace Reading

variable {S : Script} {s t : State} {es : List Element}

theorem wf (H : Reading S s) : s.WF := H.ready.wf

theorem run (H : Reading S s) (hr : Run s es t) : Reading S t :=
  ⟨H.ready.run hr,
    .trans ⟨leavesAll es, hr.leavesAll_append_unattached⟩ H.suffix⟩

theorem opened (H : Reading S s) : Reading S s.opened :=
  ⟨H.ready.opened, .trans ⟨s.pending, (List.append_assoc _ _ _).symm⟩ H.suffix⟩

end Reading

/-- The current token is the first that is no trivia. -/
theorem State.WF.token_of_significant {s : State} {t : Token} (H : s.WF)
    (h : (significant s.rest).head? = some t) : s.token = t := by
  cases hr : s.rest with
  | nil =>
    rw [hr] at h
    cases h
  | cons u us =>
    rw [hr, significant_cons (H.isTrivia_current u (by rw [hr]; rfl))] at h
    rw [State.token, hr]
    exact Option.some.inj h

/-- The kinds of the tokens to come, by the forest and the rest. -/
def ahead (xs : List (Sketch Token)) (rest : List Token) : List TokenKind :=
  (Sketch.leavesAll xs ++ rest).map Token.kind

namespace Rule

variable {α β : Type}

/-- The rule turns the leaves of `xs` into what the depth limit leaves of `xs`, and its value
satisfies `p`. -/
def Parses (r : Rule α) (S : Script) (above : List NodeKind) (xs : List (Sketch Token))
    (rest : List Token) (p : α → Prop) : Prop :=
  ∀ s, Reading S s → significant s.rest = Sketch.leavesAll xs ++ rest →
    r.Ensures s fun a es t => p a ∧ significant t.rest = rest ∧
      ∃ errors, Cut S.limits.maxDepth S.bad above xs (sketches es) errors ∧
        t.raised = errors.reverse ++ s.raised

namespace Parses

variable {S : Script} {above : List NodeKind} {xs ys : List (Sketch Token)} {rest : List Token}
  {p q : α → Prop} {r : Rule α}

theorem kinds_eq {s : State} (h : significant s.rest = Sketch.leavesAll xs ++ rest) :
    s.kinds = ahead xs rest := congrArg (List.map Token.kind) h

theorem mono (h : r.Parses S above xs rest p) (hq : ∀ a, p a → q a) : r.Parses S above xs rest q :=
  fun s H hs => (h s H hs).mono fun _ _ _ _ ht => ⟨hq _ ht.1, ht.2⟩

/-- A rule has a round for each token to come. -/
theorem of_length
    (h : (Sketch.leavesAll xs ++ rest).length ≤ S.limits.maxIterations →
      r.Parses S above xs rest p) : r.Parses S above xs rest p := by
  intro s H hs
  refine h ?_ s H hs
  have hlen := H.ready.length_le
  rwa [kinds_eq hs, ahead, List.length_map] at hlen

theorem pure {a : α} (ha : p a) : (Pure.pure a : Rule α).Parses S above [] rest p :=
  fun _ _ hs => .pure ⟨ha, hs, [], .nil, rfl⟩

theorem bind (xs ys : List (Sketch Token)) {f : α → Rule β} {q : β → Prop}
    (h : r.Parses S above xs (Sketch.leavesAll ys ++ rest) p)
    (hf : ∀ a, p a → (f a).Parses S above ys rest q) :
    (r >>= f).Parses S above (xs ++ ys) rest q := by
  intro s H hs
  rw [Sketch.leavesAll_append, List.append_assoc] at hs
  refine (h s H hs).bind fun a es t hr ht => ?_
  obtain ⟨ha, ht, errors, hcut, hraised⟩ := ht
  refine (hf a ha t (H.run hr) ht).mono fun b fs u _ hu => ?_
  obtain ⟨hb, hu, errors', hcut', hraised'⟩ := hu
  refine ⟨hb, hu, errors ++ errors', ?_, ?_⟩
  · rw [sketches_append]
    exact hcut.append hcut'
  · rw [hraised', hraised, List.reverse_append, List.append_assoc]

/-- What is done with a value in the end does not matter to what is parsed. -/
theorem bind_pure {g : α → β} {q : β → Prop} (h : r.Parses S above xs rest p)
    (hq : ∀ a, p a → q (g a)) :
    (r >>= fun a => (Pure.pure (g a) : Rule β)).Parses S above xs rest q := by
  intro s H hs
  exact .bind_pure ((h s H hs).mono fun a _ _ _ ht => ⟨hq a ht.1, ht.2⟩)

theorem look_bind {g : State → α} {b : α} {f : α → Rule β} {q : β → Prop}
    (hg : ∀ s : State, Reading S s → significant s.rest = Sketch.leavesAll xs ++ rest → g s = b)
    (hf : (f b).Parses S above xs rest q) : (view g >>= f).Parses S above xs rest q := by
  intro s H hs
  refine .view_bind ?_
  rw [hg s H hs]
  exact hf s H hs

theorem view_bind {g : State → α} {b : α} {f : α → Rule β} {q : β → Prop}
    (hg : ∀ s : State, s.WF → s.kinds = ahead xs rest → g s = b)
    (hf : (f b).Parses S above xs rest q) : (view g >>= f).Parses S above xs rest q :=
  look_bind (fun s H hs => hg s H.wf (kinds_eq hs)) hf

/-- What is looked at does not matter. -/
theorem view_bind_any {g : State → α} {f : α → Rule β} {q : β → Prop}
    (hf : ∀ a, (f a).Parses S above xs rest q) : (view g >>= f).Parses S above xs rest q :=
  fun s H hs => .view_bind (hf _ s H hs)

theorem current_bind {k : TokenKind} {f : TokenKind → Rule β} {q : β → Prop}
    (hk : (ahead xs rest).headD .eof = k) (hf : (f k).Parses S above xs rest q) :
    (current >>= f).Parses S above xs rest q :=
  view_bind (fun s H hs => by rw [H.current_eq_headD, hs, hk]) hf

theorem isAt_bind {j k : TokenKind} {f : Bool → Rule β} {q : β → Prop}
    (hk : (ahead xs rest).headD .eof = k) (hf : (f (k == j)).Parses S above xs rest q) :
    (isAt j >>= f).Parses S above xs rest q :=
  view_bind (fun s H hs => by rw [H.current_eq_headD, hs, hk]) hf

theorem isAtAny_bind {ks : List TokenKind} {k : TokenKind} {f : Bool → Rule β} {q : β → Prop}
    (hk : (ahead xs rest).headD .eof = k) (hf : (f (ks.contains k)).Parses S above xs rest q) :
    (isAtAny ks >>= f).Parses S above xs rest q :=
  view_bind (fun s H hs => by rw [H.current_eq_headD, hs, hk]) hf

theorem bump {t : Token} : Rule.bump.Parses S above [.leaf t] rest fun _ => True := by
  intro s H hs
  have hkinds : s.kinds = t.kind :: rest.map Token.kind := kinds_eq hs
  obtain ⟨t', ts, hr, -, ht', -⟩ := H.wf.exists_rest hkinds
  have hsig : t' = t ∧ significant ts = rest := by
    rw [hr, significant_cons ht'] at hs
    exact List.cons.inj hs
  obtain ⟨rfl, hsig⟩ := hsig
  refine .of_runs .bump ?_
  rw [bump_cons hr]
  refine ⟨trivial, ?_, [], ?_, rfl⟩
  · rw [State.passed, State.load]
    exact significant_dropWhile.trans hsig
  · rw [sketches_pending H.wf, sketches_token ht']
    exact .leaf .nil

theorem eat {t : Token} {k : TokenKind} (hk : t.kind = k) :
    (Rule.eat k).Parses S above [.leaf t] rest (· = true) := by
  refine isAt_bind (j := k) (k := k) hk ?_
  rw [beq_self_eq_true, if_pos rfl]
  exact bump.bind_pure fun _ _ => rfl

theorem expect {t : Token} {k : TokenKind} (hk : t.kind = k) :
    (Rule.expect k).Parses S above [.leaf t] rest (· = true) := by
  refine bind [.leaf t] [] (eat hk) fun a ha => ?_
  rw [ha, if_pos rfl]
  exact pure rfl

/-- A node that the depth limit leaves where it is. -/
theorem node {kind : NodeKind}
    (hreach : kind.reach above (Sketch.symbols Token.kind xs) ≤ S.limits.maxDepth)
    (hgood : kind ∉ NodeKind.frail ∨ ¬S.bad (.node kind xs))
    (h : r.Parses S (kind :: above) xs rest p) :
    (Rule.node kind r).Parses S above [.node kind xs] rest fun a => p a.2 := by
  intro s H hs
  have hs' : significant s.opened.rest = Sketch.leavesAll xs ++ rest := by
    rwa [Sketch.leavesAll, Sketch.leavesAll, List.append_nil] at hs
  refine .node ((h s.opened H.opened hs').mono fun a es t _ ht => ?_)
  obtain ⟨ha, ht, errors, hcut, hraised⟩ := ht
  refine ⟨ha, ht, errors, ?_, hraised⟩
  rw [sketches_pending H.wf, sketches_node, ← List.append_nil errors]
  exact .node hreach hgood hcut .nil

theorem nodeOutcome {kind : NodeKind} {r : Rule Bool} {p : Bool → Prop}
    (hreach : kind.reach above (Sketch.symbols Token.kind xs) ≤ S.limits.maxDepth)
    (hgood : kind ∉ NodeKind.frail ∨ ¬S.bad (.node kind xs))
    (h : r.Parses S (kind :: above) xs rest p) :
    (Rule.nodeOutcome kind r).Parses S above [.node kind xs] rest (·.isMatch = true) :=
  (h.node hreach hgood).bind_pure fun a _ => by cases a.2 <;> rfl

/-- A node that takes up no level, below a path within the depth limit. -/
theorem nodeOutcome_flat {kind : NodeKind} {r : Rule Bool} {p : Bool → Prop}
    (hlevels : NodeKind.levels above ≤ S.limits.maxDepth)
    (hkind : kind ∉ [NodeKind.object, .array, .variableRefExpr, .value, .pair, .elements])
    (h : r.Parses S (kind :: above) xs rest p) :
    (Rule.nodeOutcome kind r).Parses S above [.node kind xs] rest (·.isMatch = true) := by
  refine nodeOutcome (Nat.le_trans (Nat.le_of_eq ?_) hlevels) (.inl fun hp => hkind ?_) h
  · cases kind with
    | object | array | variableRefExpr | value => exact absurd (by decide) hkind
    | _ => rfl
  · exact List.mem_append_right [_, _, _, _] hp

theorem succeeds {r : Rule Outcome} {p : Outcome → Prop} (h : r.Parses S above xs rest p) :
    r.succeeds.Parses S above xs rest fun _ => True := h.bind_pure fun _ _ => trivial

end Parses

end Rule

end Blueprint
