import Blueprint.Proofs.Grammar.Parses.File

/-!
# Rules that render a forest

`r.Renders S xs rest p q`: where the leaves of the forest `xs` come next, and `rest` after them, `r`
builds `xs` itself, stops in front of `rest` and raises errors that satisfy `q`. What is parsed
within the depth limit is rendered without errors (`Renders.of_parses`). The forest need not follow
the grammar: each rule renders its node when the rule for the part of it where the errors are does.
-/

namespace Blueprint

open NodeKind Form Token Sketch

/-- In front of an item of a list there is none, or an item and a comma. -/
theorem Sketch.list_cases {α : Type} {kind : α → TokenKind} {k : NodeKind}
    {left right : List (Sketch α)} {x : Sketch α} (hx : symbol kind x = .node k)
    (h : symbols kind (left ++ x :: right) ∈ (list (Form.node k)).matches') :
    left = [] ∨ ∃ cs a ys, left = .node k cs :: .leaf a :: ys ∧ kind a = .separator ∧
      symbols kind (ys ++ x :: right) ∈ (list (Form.node k)).matches' := by
  rcases left with _ | ⟨y, left⟩
  · exact .inl rfl
  rcases mem_list_iff.1 h with h | ⟨w, hw, h⟩
  · exact absurd (List.cons.inj h).2 (by simp)
  obtain ⟨cs, zs, hcs, hzs⟩ := (symbols_eq_node_cons_iff _).1 h
  obtain ⟨rfl, rfl⟩ := List.cons.inj hcs
  rcases left with _ | ⟨z, ys⟩
  · exact absurd (hx.symm.trans (List.cons.inj hzs).1) nofun
  obtain ⟨a, us, ha, hk, rfl⟩ := (symbols_eq_token_cons_iff _).1 hzs
  obtain ⟨rfl, rfl⟩ := List.cons.inj ha
  have hne : symbols kind (ys ++ x :: right) ≠ [] := by simp [symbols]
  exact .inr ⟨cs, a, ys, rfl, hk, (mem_optional.1 hw).resolve_left hne⟩

theorem ahead_cons (x : Sketch Token) (xs : List (Sketch Token)) (rest : List Token) :
    ahead (x :: xs) rest = ahead [x] (leavesAll xs ++ rest) := by
  rw [ahead, ahead, leavesAll, leavesAll, leavesAll, List.append_nil, List.append_assoc]

namespace Rule

variable {α β : Type}

/-- The rule turns the leaves of `xs` into `xs`, its value satisfies `p`, and the errors that it
raises, the last one first, satisfy `q`. -/
def Renders (r : Rule α) (S : Script) (xs : List (Sketch Token)) (rest : List Token)
    (p : α → Prop) (q : List SyntaxError → Prop) : Prop :=
  ∀ s, Reading S s → significant s.rest = leavesAll xs ++ rest →
    r.Ensures s fun a es t => p a ∧ significant t.rest = rest ∧ Element.sketches es = xs ∧
      ∃ errors, q errors ∧ t.raised = errors ++ s.raised

/-- The rule raises no error. -/
abbrev Clean (errors : List SyntaxError) : Prop := errors = []

namespace Renders

variable {S : Script} {above : List NodeKind} {xs ys : List (Sketch Token)} {rest : List Token}
  {p : α → Prop} {p' : β → Prop} {q : List SyntaxError → Prop} {r : Rule α}

theorem mono (h : r.Renders S xs rest p q) {p' : α → Prop} (hp : ∀ a, p a → p' a) :
    r.Renders S xs rest p' q :=
  fun s H hs => (h s H hs).mono fun _ _ _ _ ht => ⟨hp _ ht.1, ht.2⟩

/-- A rule has a round for each token to come. -/
theorem of_length (h : (leavesAll xs ++ rest).length ≤ S.limits.maxIterations →
    r.Renders S xs rest p q) : r.Renders S xs rest p q := by
  intro s H hs
  refine h ?_ s H hs
  have hlen := H.ready.length_le
  rwa [Parses.kinds_eq hs, ahead, List.length_map] at hlen

/-- What lies within the depth limit and is parsed, is rendered. -/
theorem of_parses (hxs : Within Token.kind S.limits.maxDepth S.bad above xs 0)
    (h : r.Parses S above xs rest p) : r.Renders S xs rest p Clean := by
  intro s H hs
  refine (h s H hs).mono fun a es t _ ht => ?_
  obtain ⟨ha, ht, errors, hcut, hraised⟩ := ht
  obtain ⟨hes, hlen⟩ := Cut.eq_of_within hxs hcut
  cases List.eq_nil_of_length_eq_zero hlen
  exact ⟨ha, ht, hes, [], rfl, hraised⟩

/-- Where no node is built the depth does not matter. -/
theorem of_leaves (ts : List Token) (h : r.Parses S [] (ts.map .leaf) rest p) :
    r.Renders S (ts.map .leaf) rest p Clean := of_parses (.map_leaf ts) h

theorem pure {a : α} (ha : p a) : (Pure.pure a : Rule α).Renders S [] rest p Clean :=
  fun _ _ hs => .pure ⟨ha, hs, rfl, [], rfl, rfl⟩

theorem bind (xs ys : List (Sketch Token)) {f : α → Rule β} {q₁ q₂ : List SyntaxError → Prop}
    (h : r.Renders S xs (leavesAll ys ++ rest) p q₁)
    (hf : ∀ a, p a → (f a).Renders S ys rest p' q₂)
    (hq : ∀ es fs, q₁ es → q₂ fs → q (fs ++ es)) : (r >>= f).Renders S (xs ++ ys) rest p' q := by
  intro s H hs
  rw [leavesAll_append, List.append_assoc] at hs
  refine (h s H hs).bind fun a es t hr ht => ?_
  obtain ⟨ha, ht, rfl, errors, he, hraised⟩ := ht
  refine (hf a ha t (H.run hr) ht).mono fun b fs u _ hu => ?_
  obtain ⟨hb, hu, rfl, errors', he', hraised'⟩ := hu
  refine ⟨hb, hu, Element.sketches_append _ _, errors' ++ errors, hq _ _ he he', ?_⟩
  rw [hraised', hraised, List.append_assoc]

/-- All errors are raised in the second part. -/
theorem clean_bind (xs ys : List (Sketch Token)) {f : α → Rule β}
    (h : r.Renders S xs (leavesAll ys ++ rest) p Clean)
    (hf : ∀ a, p a → (f a).Renders S ys rest p' q) : (r >>= f).Renders S (xs ++ ys) rest p' q :=
  bind xs ys h hf fun es fs hes hfs => by rwa [hes, List.append_nil]

/-- All errors are raised in the first part. -/
theorem bind_clean (xs ys : List (Sketch Token)) {f : α → Rule β}
    (h : r.Renders S xs (leavesAll ys ++ rest) p q)
    (hf : ∀ a, p a → (f a).Renders S ys rest p' Clean) :
    (r >>= f).Renders S (xs ++ ys) rest p' q :=
  bind xs ys h hf fun es fs hes hfs => by rwa [hfs, List.nil_append]

theorem bind_pure {g : α → β} (h : r.Renders S xs rest p q) (hp : ∀ a, p a → p' (g a)) :
    (r >>= fun a => (Pure.pure (g a) : Rule β)).Renders S xs rest p' q := by
  intro s H hs
  exact .bind_pure ((h s H hs).mono fun a _ _ _ ht => ⟨hp a ht.1, ht.2⟩)

theorem look_bind {g : State → α} {b : α} {f : α → Rule β}
    (hg : ∀ s : State, Reading S s → significant s.rest = leavesAll xs ++ rest → g s = b)
    (hf : (f b).Renders S xs rest p' q) : (view g >>= f).Renders S xs rest p' q := by
  intro s H hs
  refine .view_bind ?_
  rw [hg s H hs]
  exact hf s H hs

theorem view_bind {g : State → α} {b : α} {f : α → Rule β}
    (hg : ∀ s : State, s.WF → s.kinds = ahead xs rest → g s = b)
    (hf : (f b).Renders S xs rest p' q) : (view g >>= f).Renders S xs rest p' q :=
  look_bind (fun s H hs => hg s H.wf (Parses.kinds_eq hs)) hf

/-- What is looked at does not matter. -/
theorem view_bind_any {g : State → α} {f : α → Rule β}
    (hf : ∀ a, (f a).Renders S xs rest p' q) : (view g >>= f).Renders S xs rest p' q :=
  fun s H hs => .view_bind (hf _ s H hs)

theorem current_bind {k : TokenKind} {f : TokenKind → Rule β}
    (hk : (ahead xs rest).headD .eof = k) (hf : (f k).Renders S xs rest p' q) :
    (current >>= f).Renders S xs rest p' q :=
  view_bind (fun s H hs => by rw [H.current_eq_headD, hs, hk]) hf

theorem isAt_bind {j k : TokenKind} {f : Bool → Rule β} (hk : (ahead xs rest).headD .eof = k)
    (hf : (f (k == j)).Renders S xs rest p' q) : (isAt j >>= f).Renders S xs rest p' q :=
  view_bind (fun s H hs => by rw [H.current_eq_headD, hs, hk]) hf

theorem isAtAny_bind {ks : List TokenKind} {k : TokenKind} {f : Bool → Rule β}
    (hk : (ahead xs rest).headD .eof = k) (hf : (f (ks.contains k)).Renders S xs rest p' q) :
    (isAtAny ks >>= f).Renders S xs rest p' q :=
  view_bind (fun s H hs => by rw [H.current_eq_headD, hs, hk]) hf

/-- What is expected is not what stands there, and nothing else is raised. -/
theorem raiseExpected_bind {ks : List TokenKind} {t : Token} {f : Unit → Rule β}
    (ht : (leavesAll xs ++ rest).head? = some t) (hkind : t.kind ≠ .error)
    (hf : (f ()).Renders S xs rest p' Clean) :
    (Rule.raiseExpected ks >>= f).Renders S xs rest p'
      (· = [⟨.unexpected ks t.kind, t.span⟩]) := by
  intro s H hs
  have htoken : s.token = t := H.wf.token_of_significant (hs ▸ ht)
  have hraise : (Rule.raiseExpected ks).Ensures s fun _ es u => es = [] ∧
      u = { s with raised := ⟨.unexpected ks t.kind, t.span⟩ :: s.raised } := by
    refine ⟨.raise s _, rfl, ?_⟩
    rw [← htoken] at hkind ⊢
    have hproblem : (if s.token.kind = .error then Problem.lexical s.token.chars
        else .unexpected ks s.token.kind) = .unexpected ks s.token.kind := if_neg hkind
    exact congrArg (fun p => ({ s with raised := ⟨p, s.token.span⟩ :: s.raised } : State)) hproblem
  refine hraise.bind fun _ es u hu he => ?_
  obtain ⟨rfl, rfl⟩ := he
  refine (hf _ (H.run hu) hs).mono fun b fs v _ hv => ?_
  obtain ⟨hb, hv, hfs, _, rfl, hraised⟩ := hv
  exact ⟨hb, hv, hfs, _, rfl, hraised⟩

theorem bump {t : Token} : Rule.bump.Renders S [.leaf t] rest (fun _ => True) Clean :=
  .of_leaves [t] .bump

theorem eat {t : Token} {k : TokenKind} (hk : t.kind = k) :
    (Rule.eat k).Renders S [.leaf t] rest (· = true) Clean :=
  .of_leaves [t] (.eat hk)

theorem expect {t : Token} {k : TokenKind} (hk : t.kind = k) :
    (Rule.expect k).Renders S [.leaf t] rest (· = true) Clean :=
  .of_leaves [t] (.expect hk)

theorem node {k : NodeKind} (h : r.Renders S xs rest p q) :
    (Rule.node k r).Renders S [.node k xs] rest (fun a => p a.2) q := by
  intro s H hs
  rw [leavesAll_node] at hs
  refine .node ((h s.opened H.opened hs).mono fun a es t _ ht => ?_)
  obtain ⟨ha, ht, hes, herrors⟩ := ht
  exact ⟨ha, ht, by rw [Element.sketches_pending H.wf, Element.sketches_node, hes], herrors⟩

theorem nodeOutcome {k : NodeKind} {r : Rule Bool} (h : r.Renders S xs rest (fun _ => True) q) :
    (Rule.nodeOutcome k r).Renders S [.node k xs] rest (·.isMatch = true) q :=
  h.node.bind_pure fun a _ => by cases a.2 <;> rfl

theorem succeeds {r : Rule Outcome} {p : Outcome → Prop} (h : r.Renders S xs rest p q) :
    r.succeeds.Renders S xs rest (fun _ => True) q := h.bind_pure fun _ _ => trivial

/-- A rule that matches, and what is told about its outcome. -/
theorem match_bind {r : Rule Outcome} {f : Outcome → Rule β}
    (h : r.Renders S xs rest (·.isMatch = true) q)
    (hf : ∀ o, o.isMatch = true → (f o).Renders S [] rest p' Clean) :
    (r >>= f).Renders S xs rest p' q := by
  rw [← List.append_nil xs]
  exact bind_clean xs [] h hf

/-! ### Entries -/

section

variable {value : Rule Outcome} {cs vs left right : List (Sketch Token)} {a b c : Token}

/-- A value decides what is raised in an entry. -/
theorem pair (ha : a.kind = .fieldName) (hc : c.kind = .equals)
    (hvalue : value.Renders S [.node .value vs] rest (·.isMatch = true) q) :
    (Rule.pair S.limits value).Renders S
      [.node .pair [.node .fieldName [.leaf a], .leaf c, .node .value vs]] rest (fun _ => True)
      q := by
  refine isAt_bind (k := .fieldName) ha (view_bind_any fun start => ?_)
  refine (nodeOutcome ?_).mono fun _ _ => trivial
  refine clean_bind [.node .fieldName [.leaf a]] [.leaf c, .node .value vs] bump.node fun _ _ => ?_
  refine clean_bind [.leaf c] [.node .value vs] (eat hc) fun ok hok => ?_
  rw [hok]
  refine match_bind hvalue fun o ho => ?_
  cases o with
  | complete => exact pure trivial
  | incomplete => exact pure trivial
  | noMatch => cases ho

variable (hS : S.Sound) (hvalue : ParsesValue S (.pair :: above) value)
  (hlevels : levels above ≤ S.limits.maxDepth)
include hS hvalue hlevels

/-- The entries behind one are parsed. -/
theorem membersLoop_pair (hcs : (ahead [.node .pair cs] []).headD .eof = .fieldName)
    (hpair : ∀ b rest, b.kind ∈ [TokenKind.separator, .objectEnd] →
      (Rule.pair S.limits value).Renders S [.node .pair cs] (b :: rest) (fun _ => True) q)
    (H : Regular Token.kind S.bad right)
    (Hw : Within Token.kind S.limits.maxDepth S.bad above right 0)
    (hword : symbols Token.kind (.node .pair cs :: right) ∈ (list (Form.node .pair)).matches')
    (hb : b.kind = .objectEnd) (budget : Nat) (found : Bool)
    (hbudget : (leavesAll (.node .pair cs :: right) ++ b :: rest).length ≤ budget) :
    (Rule.membersLoop S.limits value budget found).Renders S (.node .pair cs :: right) (b :: rest)
      (fun _ => True) q := by
  cases budget with
  | zero =>
    rw [List.length_append, List.length_cons] at hbudget
    omega
  | succ budget =>
    have hhead : (ahead (.node .pair cs :: right) (b :: rest)).headD .eof = .fieldName := by
      rw [ahead, leavesAll_node, List.append_nil] at hcs
      rw [ahead, leavesAll, leaves]
      cases h : leavesAll cs with
      | nil => rw [h] at hcs; cases hcs
      | cons t ts => rw [h] at hcs; exact hcs
    refine current_bind hhead ?_
    rcases mem_list_iff.1 hword with h | ⟨w, hw, h⟩
    · cases (symbols_eq_nil_iff _).1 (List.cons.inj h).2
      refine bind_clean [.node .pair cs] [] (hpair _ _ (hb ▸ .tail _ (.head _))) fun o _ => ?_
      exact .of_leaves [] (.current_bind (k := .objectEnd) hb (.pure trivial))
    · obtain ⟨d, us, rfl, hd, rfl⟩ := (symbols_eq_token_cons_iff _).1 (List.cons.inj h).2
      refine bind_clean [.node .pair cs] (.leaf d :: us)
        (hpair _ _ (hd ▸ .head _)) fun o _ => .of_parses Hw ?_
      refine .current_bind (k := .separator) hd ?_
      refine .bind [.leaf d] us .bump fun _ _ => ?_
      refine (Parses.membersLoop hS hvalue budget true H.of_leaf hw hlevels hb ?_).bind_pure
        fun _ _ => trivial
      simp only [leavesAll, leaves, List.length_append, List.length_cons] at hbudget ⊢
      omega

/-- The entries in front of one are parsed. -/
theorem membersLoop_front {xs : List (Sketch Token)} {x : Sketch Token}
    (hx : symbol Token.kind x = .node .pair) (H : Regular Token.kind S.bad left)
    (Hw : Within Token.kind S.limits.maxDepth S.bad above left 0)
    (hword : symbols Token.kind (left ++ x :: right) ∈ (list (Form.node .pair)).matches')
    (hloop : symbols Token.kind (x :: right) ∈ (list (Form.node .pair)).matches' →
      ∀ budget found, (leavesAll xs ++ rest).length ≤ budget →
        (Rule.membersLoop S.limits value budget found).Renders S xs rest (fun _ => True) q)
    (budget : Nat) (found : Bool) (hbudget : (leavesAll (left ++ xs) ++ rest).length ≤ budget) :
    (Rule.membersLoop S.limits value budget found).Renders S (left ++ xs) rest (fun _ => True)
      q := by
  induction budget generalizing left found with
  | zero =>
    rcases list_cases hx hword with rfl | ⟨ds, d, ys, rfl, -⟩
    · exact hloop hword 0 found hbudget
    · simp only [List.cons_append, leavesAll, leaves, List.length_append, List.length_cons] at hbudget
      omega
  | succ budget ih =>
    rcases list_cases hx hword with rfl | ⟨ds, d, ys, rfl, hd, hword'⟩
    · exact hloop hword (budget + 1) found hbudget
    have hsplit : Within Token.kind S.limits.maxDepth S.bad above
        ([.node .pair ds] ++ .leaf d :: ys) 0 := Hw
    obtain ⟨Hds, Hys⟩ := hsplit.of_append
    cases Hys with | leaf Hys =>
    refine current_bind (k := .fieldName) ?_ ?_
    · rw [List.cons_append, ahead_cons]
      exact Parses.headD_pair hS H.head
    refine clean_bind [.node .pair ds] (.leaf d :: (ys ++ xs))
      (.of_parses Hds (Parses.pair hS hvalue H.head hlevels (hd ▸ .head _))) fun o _ => ?_
    refine current_bind (k := .separator) hd ?_
    refine clean_bind [.leaf d] (ys ++ xs) bump fun _ _ => ?_
    refine (ih H.tail.of_leaf Hys hword' true ?_).bind_pure fun _ _ => trivial
    simp only [List.cons_append, leavesAll, leaves, List.length_append, List.length_cons]
      at hbudget ⊢
    omega

end

/-- A loop over entries decides what is raised in a body. -/
theorem members {value : Rule Outcome}
    (hloop : (leavesAll xs ++ rest).length ≤ S.limits.maxIterations →
      (Rule.membersLoop S.limits value S.limits.maxIterations false).Renders S xs rest
        (fun _ => True) q) :
    (Rule.members S.limits value).Renders S [.node .members xs] rest (fun _ => True) q :=
  (nodeOutcome (of_length hloop)).mono fun _ _ => trivial

theorem body {value : Rule Outcome} {a b : Token} (ha : a.kind = .objectStart)
    (hb : b.kind = .objectEnd) (hhead : (ahead xs (b :: rest)).headD .eof = .fieldName)
    (h : (Rule.members S.limits value).Renders S xs (b :: rest) (fun _ => True) q) :
    (Rule.body S.limits value).Renders S (.leaf a :: (xs ++ [.leaf b])) rest (fun _ => True) q := by
  refine clean_bind [.leaf a] (xs ++ [.leaf b]) (expect ha) fun ok hok => ?_
  rw [hok]
  refine bind_clean xs [.leaf b] (p := fun _ => True) ?_ fun _ _ =>
    (expect hb).bind_pure fun _ _ => trivial
  exact isAtAny_bind hhead h.succeeds

/-! ### Values -/

section

variable {inner : Option Inner} {cs vs : List (Sketch Token)}

theorem object {rules : Inner} (hstart : (ahead cs rest).headD .eof = .objectStart)
    (h : (Rule.body S.limits rules.value).Renders S cs rest (fun _ => True) q) :
    (Rule.object S.limits (some rules)).Renders S [.node .object cs] rest (fun _ => True) q := by
  refine isAt_bind (k := .objectStart) (by rwa [ahead, leavesAll_node]) ?_
  exact (nodeOutcome h).mono fun _ _ => trivial

/-- An object decides what is raised in a value that it is. -/
theorem operand_object (hstart : (ahead cs rest).headD .eof = .objectStart)
    (h : (Rule.object S.limits inner).Renders S [.node .object cs] rest (fun _ => True) q) :
    (Rule.operand S.limits inner).Renders S [.node .object cs] rest (fun _ => True) q :=
  current_bind (k := .objectStart) (by rwa [ahead, leavesAll_node]) h.succeeds

theorem value_object (hstart : (ahead cs rest).headD .eof = .objectStart)
    (h : (Rule.object S.limits inner).Renders S [.node .object cs] rest (fun _ => True) q) :
    (Rule.value S.limits inner).Renders S [.node .value [.node .object cs]] rest
      (·.isMatch = true) q := by
  refine isAtAny_bind (k := .objectStart) (by rwa [ahead, leavesAll_node, leavesAll_node]) ?_
  refine nodeOutcome (isAt_bind (k := .objectStart) (by rwa [ahead, leavesAll_node]) ?_)
  exact operand_object hstart h

theorem value_links (hstart : (ahead cs rest).headD .eof = .variableValueRef)
    (h : (leavesAll cs ++ rest).length ≤ S.limits.maxIterations →
      (Rule.links S.limits inner S.limits.maxIterations).Renders S cs rest (fun _ => True) q) :
    (Rule.value S.limits inner).Renders S [.node .value [.node .variableRefExpr cs]] rest
      (·.isMatch = true) q := by
  have hstart' : (ahead [.node .variableRefExpr cs] rest).headD .eof = .variableValueRef := by
    rwa [ahead, leavesAll_node]
  refine isAtAny_bind (k := .variableValueRef) (by rwa [ahead, leavesAll_node]) ?_
  refine nodeOutcome (isAt_bind hstart' ?_)
  exact succeeds (p := fun _ => True) (isAt_bind hstart'
    ((nodeOutcome (of_length h)).mono fun _ _ => trivial))

/-- The value behind the `+` decides what is raised in a reference with a tail. -/
theorem links {a c : Token} {k : TokenKind} (hc : c.kind = .plus)
    (hk : (ahead [.node .value vs] rest).headD .eof = k) (hstart : k ∈ valueStart) {budget : Nat}
    (h : k ≠ .variableValueRef ∧
        (Rule.operand S.limits inner).Renders S vs rest (fun _ => True) q ∨
      k = .variableValueRef ∧ ∃ rules, inner = some rules ∧ ∃ ds,
        vs = [.node .variableRefExpr ds] ∧
        (rules.links budget).Renders S ds rest (fun _ => True) q) :
    (Rule.links S.limits inner (budget + 1)).Renders S [.leaf a, .leaf c, .node .value vs] rest
      (fun _ => True) q := by
  refine clean_bind [.leaf a] [.leaf c, .node .value vs] bump fun _ _ => ?_
  have hahead : ∃ ks, ahead [.leaf c, .node .value vs] rest = .plus :: k :: ks := by
    cases hvs : ahead [.node .value vs] rest with
    | nil =>
      rw [hvs] at hk
      exact absurd (hk ▸ hstart) (by decide)
    | cons k' ks =>
      rw [hvs] at hk
      exact ⟨ks, (congrArg (c.kind :: ·) hvs).trans (by rw [hc, ← hk]; rfl)⟩
  obtain ⟨ks, hks⟩ := hahead
  refine view_bind (b := true) (fun s Hs hs => Hs.atTail (hs.trans hks) hstart) ?_
  refine clean_bind [.leaf c] [.node .value vs] bump fun _ _ => ?_
  refine isAt_bind hk ?_
  rcases h with ⟨hne, h⟩ | ⟨rfl, rules, rfl, ds, rfl, h⟩
  · rw [beq_eq_false_iff_ne.2 hne]
    exact h.node.bind_pure fun _ _ => trivial
  · exact h.node.node.bind_pure fun _ _ => trivial

end

/-! ### Items -/

section

variable {room : Nat} {vs left right : List (Sketch Token)} {x : Sketch Token} {a b : Token}

/-- A body decides what is raised in a module. -/
theorem item_blueprint (ha : a.kind = .blueprintTypeName)
    (h : (Rule.body S.limits (Rule.value S.limits (innerAt S.limits room))).Renders S xs rest
      (fun _ => True) q) :
    (Rule.item S.limits room).Renders S
      [.node .blueprint (.node .blueprintType [.leaf a] :: xs)] rest (·.isMatch = true) q := by
  refine current_bind (k := .blueprintTypeName) ha (isAt_bind (k := .blueprintTypeName) ha ?_)
  exact nodeOutcome (clean_bind [.node .blueprintType [.leaf a]] xs bump.node fun _ _ => h)

/-- A value decides what is raised in a variable. -/
theorem item_variableDef (ha : a.kind = .variableName)
    (hb : b.kind = .equals ∨ b.kind = .plusEquals)
    (h : (Rule.value S.limits (innerAt S.limits room)).Renders S [.node .value vs] rest
      (·.isMatch = true) q) :
    (Rule.item S.limits room).Renders S [.node .variable [.leaf a, .leaf b, .node .value vs]] rest
      (·.isMatch = true) q := by
  refine current_bind (k := .variableName) ha (isAt_bind (k := .variableName) ha ?_)
  refine view_bind_any fun start => nodeOutcome ?_
  refine clean_bind [.leaf a] [.leaf b, .node .value vs] bump fun _ _ => ?_
  refine clean_bind [.leaf b] [.node .value vs]
    (.of_leaves [b] (Parses.eatAssignment hb)) fun ok hok => ?_
  rw [hok]
  refine match_bind h fun o ho => ?_
  cases o with
  | complete => exact pure trivial
  | incomplete => exact pure trivial
  | noMatch => cases ho

theorem itemOrSkip (h : (Rule.item S.limits room).Renders S xs rest (·.isMatch = true) q) :
    (Rule.itemOrSkip S.limits room).Renders S xs rest (fun _ => True) q := by
  refine match_bind h fun o ho => ?_
  rw [ho]
  exact pure trivial

/-- An item that takes a token, and the items after it. -/
theorem items_cons {q' : List SyntaxError → Prop} {budget : Nat} (hx : x.leaves ≠ [])
    (hitem : (Rule.itemOrSkip S.limits room).Renders S [x] (leavesAll right ++ rest)
      (fun _ => True) q')
    (h : (do Rule.itemOrSkip S.limits room; Rule.items S.limits room budget : Rule Unit).Renders S
      (x :: right) rest (fun _ => True) q) :
    (Rule.items S.limits room (budget + 1)).Renders S (x :: right) rest (fun _ => True) q := by
  intro s H hs
  have hs' : significant s.rest = leavesAll [x] ++ (leavesAll right ++ rest) := by
    rw [hs, leavesAll, leavesAll, leavesAll, List.append_nil, List.append_assoc]
  obtain ⟨hrun, -, hu, -⟩ := hitem s H hs'
  have hkinds {s : State} {ts : List Token} (h : significant s.rest = ts) :
      s.kinds.length = ts.length := by
    rw [State.kinds, kindsOf_eq_map_significant, h, List.length_map]
  have hlt := hkinds hu
  have hle := hkinds hs'
  have hpos := List.length_pos_iff.2 hx
  simp only [leavesAll, List.append_nil, List.length_append] at hlt hle
  have hmoves : (Rule.itemOrSkip S.limits room s).state.position ≠ s.position := by
    rw [Ne, hrun.position_eq_iff H.wf]
    omega
  have hend : s.atEof = false := by
    rw [← Bool.not_eq_true, H.wf.atEof_iff, ← List.length_eq_zero_iff]
    omega
  rw [Ensures, items_succ _ _ hend hmoves]
  exact h s H hs

variable (hS : S.Sound)
include hS

/-- The items in front of others are parsed. -/
theorem items_front (H : Regular Token.kind S.bad left)
    (Hw : Within Token.kind S.limits.maxDepth S.bad [.file] left 0)
    (hleft : symbols Token.kind left ∈ NodeKind.file.production.matches')
    (hrest : Ends (ahead xs rest))
    (h : ∀ budget, (leavesAll xs).length ≤ budget →
      (Rule.items S.limits S.limits.maxDepth budget).Renders S xs rest (fun _ => True) q)
    (budget : Nat) (hbudget : (leavesAll (left ++ xs)).length ≤ budget) :
    (Rule.items S.limits S.limits.maxDepth budget).Renders S (left ++ xs) rest (fun _ => True) q := by
  induction budget generalizing left with
  | zero =>
    rcases Parses.item_cases hleft with rfl | ⟨k, cs, ys, rfl, hk, -⟩
    · exact h 0 hbudget
    · have hpos := List.length_pos_iff.2 (Parses.leavesAll_item_ne_nil H hk)
      simp only [List.cons_append, leavesAll, leaves, List.length_append] at hbudget
      omega
  | succ budget ih =>
    rcases Parses.item_cases hleft with rfl | ⟨k, cs, ys, rfl, hk, hys⟩
    · exact h (budget + 1) hbudget
    have hne := Parses.leavesAll_item_ne_nil H hk
    have hpos := List.length_pos_iff.2 hne
    obtain ⟨Hx, Hys⟩ := (show Within _ _ _ _ ([.node k cs] ++ ys) 0 from Hw).of_append
    have hends : Ends (ahead ys (leavesAll xs ++ rest)) := Parses.ends_items H.tail hys hrest
    rw [ahead, ← List.append_assoc, ← leavesAll_append] at hends
    have hitem := of_parses Hx (Parses.itemOrSkip hS H.head hk hends)
    refine items_cons hne hitem (clean_bind [.node k cs] (ys ++ xs) hitem fun _ _ => ?_)
    refine ih H.tail Hys hys ?_
    simp only [List.cons_append, leavesAll, leaves, List.length_append] at hbudget ⊢
    omega

/-- The items behind one are parsed. -/
theorem items_item (hx : x.leaves ≠ [])
    (h : (Rule.item S.limits S.limits.maxDepth).Renders S [x] (leavesAll right) (·.isMatch = true) q)
    (H : Regular Token.kind S.bad right)
    (Hw : Within Token.kind S.limits.maxDepth S.bad [.file] right 0)
    (hright : symbols Token.kind right ∈ NodeKind.file.production.matches')
    (budget : Nat) (hbudget : (leavesAll (x :: right)).length ≤ budget) :
    (Rule.items S.limits S.limits.maxDepth budget).Renders S (x :: right) [] (fun _ => True) q := by
  have hpos := List.length_pos_iff.2 hx
  rw [leavesAll, List.length_append] at hbudget
  cases budget with
  | zero => omega
  | succ budget =>
    have hitem : (Rule.itemOrSkip S.limits S.limits.maxDepth).Renders S [x] (leavesAll right ++ [])
        (fun _ => True) q := by
      rw [List.append_nil]
      exact itemOrSkip h
    exact items_cons hx hitem (bind_clean [x] right hitem fun _ _ =>
      .of_parses Hw (Parses.items hS budget H hright (by omega)))

omit hS in
theorem contents (h : (leavesAll xs).length ≤ S.limits.maxIterations →
      (Rule.items S.limits S.limits.maxDepth S.limits.maxIterations).Renders S xs []
        (fun _ => True) q) :
    (Rule.contents S.limits S.limits.maxDepth S.limits.maxIterations).Renders S xs []
      (fun _ => True) q := by
  rw [← List.append_nil xs]
  refine bind_clean xs [] (of_length fun hlen => h ?_) fun _ _ => .of_leaves [] ?_
  · rwa [leavesAll, List.append_nil, List.append_nil] at hlen
  · exact .view_bind (b := true) (fun s H hs => H.atEof_iff.2 hs) (.pure trivial)

end

end Renders

end Rule

end Blueprint
