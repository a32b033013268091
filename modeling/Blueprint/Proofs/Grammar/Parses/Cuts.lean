import Blueprint.Proofs.Grammar.Parses
import Blueprint.Proofs.Tree.Balanced

/-!
# Constructs that are cut out

A construct past the depth limit goes into an error node, and nothing else does: what the skipping
takes is the bracketed group in front of it (`Group`), or in the tail of a reference all operands of
the chain (`Chain`), and the leaves of the construct are exactly that.
-/

namespace Blueprint

open Token

namespace Rule

/-- What is taken from a bracket depth on: all up to the token that brings it back to zero. -/
inductive Group : Nat → List TokenKind → Prop
  | last {n : Nat} {k : TokenKind} : depthAfter n k = 0 → Group n [k]
  | cons {n : Nat} {k : TokenKind} {ks : List TokenKind} : depthAfter n k ≠ 0 →
    Group (depthAfter n k) ks → Group n (k :: ks)

/-- Groups with a `+` between them, each with the start of a value behind it. -/
inductive Chain : List TokenKind → Prop
  | last {ks : List TokenKind} : Group 0 ks → Chain ks
  | cons {ks ks' : List TokenKind} {k : TokenKind} : Group 0 ks → k ∈ valueStart →
    Chain (k :: ks') → Chain (ks ++ .plus :: k :: ks')

theorem depthAfter_of_not_bracket {n : Nat} {k : TokenKind} (h : k ∉ TokenKind.brackets) :
    depthAfter n k = n := by
  cases k with
  | objectStart | objectEnd | arrayStart | arrayEnd => exact absurd (by decide) h
  | _ => rfl

theorem depthAfter_closer {n : Nat} {opening closing : TokenKind}
    (h : opening.closer? = some closing) :
    depthAfter n opening = n + 1 ∧ depthAfter (n + 1) closing = n := by
  cases opening <;> cases h <;> exact ⟨rfl, rfl⟩

namespace Group

variable {n : Nat} {k : TokenKind} {ks ws : List TokenKind}

/-- Balanced brackets in front of the rest of a group belong to it. -/
theorem append_of_balanced (H : Balanced ks) (h : Group (n + 1) ws) :
    Group (n + 1) (ks ++ ws) := by
  induction H generalizing n ws with
  | nil => exact h
  | cons hk _ ih =>
    have hdepth : depthAfter (n + 1) _ = n + 1 := depthAfter_of_not_bracket hk
    refine .cons (by rw [hdepth]; nofun) ?_
    rw [hdepth]
    exact ih h
  | group hoc _ _ ih ih' =>
    obtain ⟨hopen, hclose⟩ := depthAfter_closer (n := n + 1) hoc
    rw [List.cons_append, List.append_assoc]
    refine .cons (by rw [hopen]; nofun) ?_
    rw [hopen]
    refine ih (.cons (by rw [hclose]; nofun) ?_)
    rw [hclose]
    exact ih' h

theorem single (h : k ∉ TokenKind.brackets) : Group 0 [k] := .last (depthAfter_of_not_bracket h)

theorem enclosed {opening closing : TokenKind} (h : opening.closer? = some closing)
    (H : Balanced ks) : Group 0 (opening :: (ks ++ [closing])) := by
  obtain ⟨hopen, hclose⟩ := depthAfter_closer (n := 0) h
  refine .cons (by rw [hopen]; nofun) ?_
  rw [hopen]
  exact append_of_balanced H (.last hclose)

end Group

theorem Chain.ne_nil {ks : List TokenKind} (H : Chain ks) : ks ≠ [] := by
  cases H with
  | last H => cases H <;> nofun
  | cons => exact List.append_ne_nil_of_right_ne_nil _ nofun

end Rule

/-! ### The constructs -/

namespace Regular

open Sketch Rule

variable {α : Type} {kind : α → TokenKind} {bad : Sketch α → Prop} {xs cs : List (Sketch α)}
  {k : NodeKind}

theorem group (H : Regular kind bad [.node k cs])
    (hbad : ∀ x, bad x → Balanced (x.leaves.map kind)) (hk : k = .array ∨ k = .object) :
    Group 0 ((leavesAll cs).map kind) := by
  obtain ⟨_, -, _, ks, hclose, hks, he⟩ := H.exists_brackets hbad hk
  rw [he]
  exact .enclosed hclose hks

/-- Further operands behind a first one make a chain with it. -/
theorem chain_many {w : List TokenKind} {item : Symbol} (hw : Group 0 w)
    (hitem : ∀ x zs, symbol kind x = item → Regular kind bad (x :: zs) →
      Group 0 (x.leaves.map kind) ∧ ∃ k ∈ valueStart, ∃ ks, x.leaves.map kind = k :: ks)
    (H : Regular kind bad xs)
    (hxs : symbols kind xs ∈ (Form.many (.token .plus * .char item)).matches') :
    Chain (w ++ (leavesAll xs).map kind) := by
  induction hlen : xs.length using Nat.strong_induction_on generalizing xs w with
  | _ n ih =>
    rcases Form.mem_many_iff.1 hxs with hnil | ⟨_, ⟨_, rfl, _, rfl, rfl⟩, ys, hys, h⟩
    · cases (symbols_eq_nil_iff kind).1 hnil
      rw [leavesAll, List.map_nil, List.append_nil]
      exact .last hw
    · obtain ⟨a, us, rfl, ha, hus⟩ := (symbols_eq_token_cons_iff kind).1 h.symm
      cases us with
      | nil => cases hus
      | cons x zs =>
        obtain ⟨hx, rfl⟩ := List.cons.inj hus
        obtain ⟨hgroup, k, hk, ks, hks⟩ := hitem x zs hx H.of_leaf
        have hrest := ih zs.length (hlen ▸ Nat.lt_succ_of_lt (Nat.lt_succ_self _)) hgroup
          H.of_leaf.tail hys rfl
        rw [leavesAll, leavesAll, List.map_append, List.map_append, leaves, List.map_singleton, ha]
        rw [hks, List.cons_append] at hrest ⊢
        exact .cons hw hk hrest

/-- The leaves of a value start like a value. -/
theorem exists_start (H : Regular kind bad [.node .value cs])
    (hbad : ∀ x, bad x → Balanced (x.leaves.map kind)) :
    ∃ k ∈ valueStart, ∃ ks, (leavesAll cs).map kind = k :: ks := by
  rcases H.value with ⟨a, rfl, ha | ha⟩ | ⟨k, ds, rfl, Hd, rfl | rfl | rfl | rfl⟩
  · exact ⟨.bool, by decide, [], by rw [← ha]; rfl⟩
  · exact ⟨.number, by decide, [], by rw [← ha]; rfl⟩
  · obtain ⟨a, ys, rfl, ha, -⟩ := Hd.stringExpr
    exact ⟨.string, by decide, _, by rw [leavesAll_node, ← ha]; rfl⟩
  · obtain ⟨as, ys, rfl, Ha, -⟩ := Hd.arrayExpr
    obtain ⟨opening, hmem, closing, ks, -, -, he⟩ := Ha.exists_brackets hbad (.inl rfl)
    refine ⟨opening, hmem, (ks ++ [closing]) ++ (leavesAll ys).map kind, ?_⟩
    rw [leavesAll_node, leavesAll, leaves, List.map_append, he, List.cons_append]
  · obtain ⟨opening, hmem, _, _, -, -, he⟩ := Hd.exists_brackets hbad (.inr rfl)
    exact ⟨opening, hmem, _, by rw [leavesAll_node, he]⟩
  · obtain ⟨a, ha, rfl | ⟨b, vs, rfl, -⟩⟩ := Hd.variableRefExpr
    · exact ⟨.variableValueRef, by decide, _, by rw [leavesAll_node, ← ha]; rfl⟩
    · exact ⟨.variableValueRef, by decide, _, by rw [leavesAll_node, ← ha]; rfl⟩

/-- The leaves of a value are a chain. -/
theorem chain (H : Regular kind bad [.node .value cs])
    (hbad : ∀ x, bad x → Balanced (x.leaves.map kind)) :
    Chain ((leavesAll cs).map kind) := by
  induction hlen : (leavesAll cs).length using Nat.strong_induction_on generalizing cs with
  | _ n ih =>
    rcases H.value with ⟨a, rfl, ha | ha⟩ | ⟨k, ds, rfl, Hd, rfl | rfl | rfl | rfl⟩
    · exact .last (.single (by rw [ha]; decide))
    · exact .last (.single (by rw [ha]; decide))
    · obtain ⟨a, ys, rfl, ha, hys⟩ := Hd.stringExpr
      rw [leavesAll_node, leavesAll, List.map_append]
      refine chain_many (.single (by rw [ha]; decide)) (fun x zs hx _ => ?_)
        (Hd.of_node (by decide)).2.of_leaf hys
      cases x with
      | node => cases hx
      | leaf a =>
        have ha : kind a = .string := Symbol.token.inj hx
        exact ⟨.single (by rw [ha]; decide), kind a, by rw [ha]; decide, [], rfl⟩
    · obtain ⟨as, ys, rfl, Ha, Hys, hys⟩ := Hd.arrayExpr
      rw [leavesAll_node, leavesAll, List.map_append]
      refine chain_many (Ha.group hbad (.inl rfl)) (fun x zs hx Hx => ?_) Hys hys
      cases x with
      | leaf => cases hx
      | node k cs =>
        obtain rfl : k = .array := Symbol.node.inj hx
        obtain ⟨opening, hmem, _, _, -, -, he⟩ := Hx.head.exists_brackets hbad (.inl rfl)
        exact ⟨Hx.head.group hbad (.inl rfl), opening, hmem, _, he⟩
    · rw [leavesAll_node]
      exact .last (Hd.group hbad (.inr rfl))
    · obtain ⟨a, ha, rfl | ⟨b, vs, rfl, hb, Hv⟩⟩ := Hd.variableRefExpr
      · exact .last (.single (by rw [ha]; decide))
      · have hlt : (leavesAll vs).length < n := by
          rw [← hlen]
          simp only [leavesAll, leaves, List.length_append, List.length_cons, List.length_nil]
          omega
        obtain ⟨k, hk, ks, hks⟩ := Hv.exists_start hbad
        have hrest := ih _ hlt Hv rfl
        have he : (leavesAll [.node .variableRefExpr [.leaf a, .leaf b, .node .value vs]]).map
            kind = [kind a] ++ .plus :: (leavesAll vs).map kind := by
          rw [← hb]
          simp only [leavesAll, leaves, List.append_nil, List.map_cons, List.cons_append,
            List.nil_append]
        rw [he]
        rw [hks] at hrest ⊢
        exact .cons (.single (by rw [ha]; decide)) hk hrest

end Regular

/-! ### The rules that skip them -/

namespace Rule

variable {α β : Type} {S : Script} {above : List NodeKind} {cs : List (Sketch Token)}
  {ts rest : List Token} {k : NodeKind}

namespace Parses

/-- Where tokens come next the file is not at its end. -/
theorem atEof_bind {xs : List (Sketch Token)} {f : Bool → Rule β} {q : β → Prop}
    (h : ahead xs rest ≠ []) (hf : (f false).Parses S above xs rest q) :
    (view State.atEof >>= f).Parses S above xs rest q := by
  refine view_bind (fun s H hs => ?_) hf
  rw [← Bool.not_eq_true, H.atEof_iff, hs]
  exact h

theorem bumpGroup (budget : Nat) {n : Nat} (H : Group n (ts.map Token.kind))
    (hbudget : ts.length ≤ budget) :
    (Rule.bumpGroup budget n).Parses S above (ts.map .leaf) rest fun _ => True := by
  induction budget generalizing ts n with
  | zero =>
    cases List.eq_nil_of_length_eq_zero (Nat.le_zero.1 hbudget)
    cases H
  | succ budget ih =>
    cases ts with
    | nil => cases H
    | cons t ts =>
      refine atEof_bind nofun (current_bind (k := t.kind) rfl ?_)
      refine bind [.leaf t] (ts.map .leaf) bump fun _ _ => ?_
      generalize hks : (t :: ts).map Token.kind = ks at H
      cases H with
      | last hdepth =>
        obtain ⟨rfl, hnil⟩ := List.cons.inj hks
        cases List.map_eq_nil_iff.1 hnil
        rw [if_pos hdepth]
        exact pure trivial
      | cons hdepth H =>
        obtain ⟨rfl, rfl⟩ := List.cons.inj hks
        rw [if_neg hdepth]
        exact ih H (Nat.le_of_succ_le_succ hbudget)

/-- The loop over a group has enough rounds for it. -/
theorem bumpGroup_maxIterations (H : Group 0 (ts.map Token.kind)) :
    (Rule.bumpGroup S.limits.maxIterations 0).Parses S above (ts.map .leaf) rest fun _ => True := by
  refine of_length fun hlen => bumpGroup _ H ?_
  rw [Sketch.leavesAll_map_leaf, List.length_append] at hlen
  exact Nat.le_of_add_right_le hlen

theorem bumpChain (budget : Nat) (H : Chain (ts.map Token.kind)) (hrest : Ends (rest.map Token.kind))
    (hbudget : ts.length ≤ budget) :
    (Rule.bumpChain S.limits budget).Parses S above (ts.map .leaf) rest fun _ => True := by
  induction budget generalizing ts with
  | zero =>
    cases List.eq_nil_of_length_eq_zero (Nat.le_zero.1 hbudget)
    exact absurd rfl H.ne_nil
  | succ budget ih =>
    cases ts with
    | nil => exact absurd rfl H.ne_nil
    | cons t ts =>
      refine atEof_bind nofun ?_
      generalize hks : (t :: ts).map Token.kind = ks at H
      cases H with
      | last H =>
        rw [← List.append_nil ((t :: ts).map _)]
        refine bind _ _ (bumpGroup_maxIterations (hks ▸ H)) fun _ _ => ?_
        refine view_bind (b := false) (fun s Hs hs => ?_) (pure trivial)
        rw [← Bool.not_eq_true]
        exact Hs.not_at_plus (hs ▸ hrest) _
      | @cons us' ks' k H hk Hnext =>
        obtain ⟨us, vs, hts, hus, hvs⟩ := List.map_eq_append_iff.1 hks
        obtain ⟨p, ws, rfl, hp, hws⟩ := List.map_eq_cons_iff.1 hvs
        rw [hts, List.map_append]
        refine bind _ _ (bumpGroup_maxIterations (hus ▸ H)) fun _ _ => ?_
        refine view_bind (b := true) (fun s Hs hs => ?_) ?_
        · have hahead : ahead ((p :: ws).map .leaf) rest =
              .plus :: k :: (ks' ++ rest.map Token.kind) := by
            rw [ahead, Sketch.leavesAll_map_leaf, List.map_append, hvs]
            rfl
          exact Hs.atTail (hs.trans hahead) hk
        · refine bind [.leaf p] (ws.map .leaf) bump fun _ _ => ih (hws ▸ Hnext) ?_
          rw [hts, List.length_append, List.length_cons] at hbudget
          omega

end Parses

open Element in
/-- Where the leaves of `xs` come next, and `rest` after them, the rule builds `xs` and raises `n`
errors. -/
def Yields (r : Rule α) (S : Script) (xs : List (Sketch Token)) (rest : List Token) (n : Nat) :
    Prop :=
  ∀ s, Reading S s → significant s.rest = Sketch.leavesAll xs ++ rest →
    r.Ensures s fun _ es t => significant t.rest = rest ∧ sketches es = xs ∧
      ∃ errors : List SyntaxError, errors.length = n ∧ t.raised = errors ++ s.raised

namespace Yields

variable {r : Rule α} {xs : List (Sketch Token)} {m n : Nat}

/-- Tokens are built as they are. -/
theorem of_parses {p : α → Prop} (h : r.Parses S [] (ts.map .leaf) rest p) :
    r.Yields S (ts.map .leaf) rest 0 := by
  intro s H hs
  refine (h s H hs).mono fun a es t _ ht => ?_
  obtain ⟨-, ht, errors, hcut, hraised⟩ := ht
  obtain ⟨hes, rfl⟩ := hcut.eq_of_map_leaf
  exact ⟨ht, hes, [], rfl, hraised⟩

theorem node (h : r.Yields S xs rest n) : (Rule.node k r).Yields S [.node k xs] rest n := by
  intro s H hs
  rw [Sketch.leavesAll_node] at hs
  refine .node ((h s.opened H.opened hs).mono fun a es t _ ht => ?_)
  obtain ⟨ht, hes, hraised⟩ := ht
  exact ⟨ht, by rw [Element.sketches_pending H.wf, Element.sketches_node, hes], hraised⟩

theorem bind_pure {g : α → β} (h : r.Yields S xs rest n) :
    (r >>= fun a => (Pure.pure (g a) : Rule β)).Yields S xs rest n :=
  fun s H hs => .bind_pure (h s H hs)

theorem bind (xs ys : List (Sketch Token)) {f : α → Rule β}
    (h : r.Yields S xs (Sketch.leavesAll ys ++ rest) m) (hf : ∀ a, (f a).Yields S ys rest n) :
    (r >>= f).Yields S (xs ++ ys) rest (m + n) := by
  intro s H hs
  rw [Sketch.leavesAll_append, List.append_assoc] at hs
  refine (h s H hs).bind fun a es t hr ht => ?_
  obtain ⟨ht, rfl, errors, rfl, hraised⟩ := ht
  refine (hf a t (H.run hr) ht).mono fun b fs u _ hu => ?_
  obtain ⟨hu, rfl, errors', rfl, hraised'⟩ := hu
  refine ⟨hu, Element.sketches_append _ _, errors' ++ errors, ?_, ?_⟩
  · rw [List.length_append, Nat.add_comm]
  · rw [hraised', hraised, List.append_assoc]

/-- Tokens first, with a value that counts. -/
theorem parses_bind (ts : List Token) (ys : List (Sketch Token)) {p : α → Prop} {f : α → Rule β}
    (h : r.Parses S [] (ts.map .leaf) (Sketch.leavesAll ys ++ rest) p)
    (hf : ∀ a, p a → (f a).Yields S ys rest n) :
    (r >>= f).Yields S (ts.map .leaf ++ ys) rest n := by
  intro s H hs
  rw [Sketch.leavesAll_append, List.append_assoc] at hs
  refine (h s H hs).bind fun a es t hr ht => ?_
  obtain ⟨ha, ht, errors, hcut, hraised⟩ := ht
  obtain ⟨hes, rfl⟩ := hcut.eq_of_map_leaf
  refine (hf a ha t (H.run hr) ht).mono fun b fs u _ hu => ?_
  obtain ⟨hu, rfl, errors', hlen, hraised'⟩ := hu
  exact ⟨hu, by rw [Element.sketches_append, hes], errors', hlen, by rw [hraised', hraised]; rfl⟩

theorem look_bind {g : State → α} {b : α} {f : α → Rule β}
    (hg : ∀ s : State, Reading S s → significant s.rest = Sketch.leavesAll xs ++ rest → g s = b)
    (hf : (f b).Yields S xs rest n) : (view g >>= f).Yields S xs rest n := by
  intro s H hs
  refine .view_bind ?_
  rw [hg s H hs]
  exact hf s H hs

/-- What is looked at does not matter. -/
theorem look_bind_any {g : State → α} {f : α → Rule β} (hf : ∀ a, (f a).Yields S xs rest n) :
    (view g >>= f).Yields S xs rest n :=
  fun s H hs => .view_bind (hf _ s H hs)

theorem pure {a : α} : (Pure.pure a : Rule α).Yields S [] rest 0 :=
  fun _ _ hs => .pure ⟨hs, rfl, [], rfl, rfl⟩

theorem raises {r : Rule Unit} (hr : r.Raises) : r.Yields S [] rest 1 :=
  fun _ _ hs => .of_raises hr fun e => ⟨hs, rfl, [e], rfl, rfl⟩

theorem skipGroup (H : Group 0 (ts.map Token.kind)) :
    (skipGroup S.limits).Yields S [.node .error (ts.map .leaf)] rest 0 :=
  (of_parses (Parses.bumpGroup_maxIterations H)).node.bind_pure

theorem skipChain (H : Chain (ts.map Token.kind)) (hrest : Ends (rest.map Token.kind)) :
    (skipChain S.limits).Yields S [.node .error (ts.map .leaf)] rest 0 := by
  refine (of_parses (p := fun _ => True) (Parses.of_length fun hlen => ?_)).node.bind_pure
  rw [Sketch.leavesAll_map_leaf, List.length_append] at hlen
  exact Parses.bumpChain _ H hrest (Nat.le_of_add_right_le hlen)

end Yields

namespace Parses

/-- A node past the depth limit: an error about it is raised, and its leaves go into an error
node. -/
theorem deep {r : Rule α} (hreach : S.limits.maxDepth < k.reach above (Sketch.symbols Token.kind cs))
    (hcs : Sketch.leavesAll cs ≠ [])
    (h : r.Yields S [.node .error ((Sketch.leavesAll cs).map .leaf)] rest 0) :
    (raiseHere (.nestingTooDeep S.limits.maxDepth) >>= fun _ => r).Parses S above [.node k cs] rest
      fun _ => True := by
  intro s H hs
  rw [Sketch.leavesAll_node] at hs
  obtain ⟨t, ts, hts⟩ := List.exists_cons_of_ne_nil hcs
  have hspan : s.token.span = t.span :=
    congrArg Token.span (H.wf.token_of_significant (by rw [hs, hts]; rfl))
  have hraise : (raiseHere (.nestingTooDeep S.limits.maxDepth)).Ensures s fun _ es u =>
      es = [] ∧ u = { s with raised := ⟨.nestingTooDeep S.limits.maxDepth, t.span⟩ :: s.raised } :=
    ⟨.raise s _, rfl, by rw [← hspan]; rfl⟩
  refine hraise.bind fun _ es u hu he => ?_
  obtain ⟨rfl, rfl⟩ := he
  have hs' : significant s.rest =
      Sketch.leavesAll [.node .error ((Sketch.leavesAll cs).map .leaf)] ++ rest := by
    rw [Sketch.leavesAll_node, Sketch.leavesAll_map_leaf, hs]
  refine (h _ (H.run hu) hs').mono fun a fs v _ hv => ?_
  obtain ⟨hv, hfs, errors, hlen, hraised⟩ := hv
  cases List.eq_nil_of_length_eq_zero hlen
  refine ⟨trivial, hv, [_], ?_, hraised⟩
  rw [List.nil_append, hfs, hts]
  exact .deep hreach hts .nil

theorem tooDeep
    (hreach : S.limits.maxDepth < k.reach above (Sketch.symbols Token.kind cs))
    (H : Group 0 ((Sketch.leavesAll cs).map Token.kind)) :
    (tooDeep S.limits).Parses S above [.node k cs] rest fun _ => True := by
  refine deep hreach (fun hnil => ?_) (Yields.skipGroup H).bind_pure
  rw [hnil] at H
  cases H

end Parses

open Element in
/-- Where the leaves of `xs` come next, and `rest` after them, the rule builds `xs` and raises one
error, about `t`. -/
def Faults (r : Rule α) (S : Script) (xs : List (Sketch Token)) (rest : List Token) (t : Token) :
    Prop :=
  ∀ s, Reading S s → significant s.rest = Sketch.leavesAll xs ++ rest →
    r.Ensures s fun _ es u => significant u.rest = rest ∧ sketches es = xs ∧
      ∃ e : SyntaxError, e.span = t.span ∧ u.raised = e :: s.raised

namespace Faults

variable {r : Rule α} {xs : List (Sketch Token)} {t : Token}

/-- A rule has a round for each token to come. -/
theorem of_length (h : (Sketch.leavesAll xs ++ rest).length ≤ S.limits.maxIterations →
    r.Faults S xs rest t) : r.Faults S xs rest t := by
  intro s H hs
  refine h ?_ s H hs
  have hlen := H.ready.length_le
  rwa [Parses.kinds_eq hs, ahead, List.length_map] at hlen

theorem view_bind {g : State → α} {b : α} {f : α → Rule β}
    (hg : ∀ s : State, s.WF → s.kinds = ahead xs rest → g s = b) (hf : (f b).Faults S xs rest t) :
    (view g >>= f).Faults S xs rest t := by
  intro s H hs
  refine .view_bind ?_
  rw [hg s H.wf (Parses.kinds_eq hs)]
  exact hf s H hs

theorem current_bind {k : TokenKind} {f : TokenKind → Rule β}
    (hk : (ahead xs rest).headD .eof = k) (hf : (f k).Faults S xs rest t) :
    (current >>= f).Faults S xs rest t :=
  view_bind (fun s H hs => by rw [H.current_eq_headD, hs, hk]) hf

theorem isAt_bind {j k : TokenKind} {f : Bool → Rule β} (hk : (ahead xs rest).headD .eof = k)
    (hf : (f (k == j)).Faults S xs rest t) : (isAt j >>= f).Faults S xs rest t :=
  view_bind (fun s H hs => by rw [H.current_eq_headD, hs, hk]) hf

/-- What is expected is not what stands there, and from there on nothing is raised. -/
theorem raiseExpected {ks : List TokenKind} {f : Unit → Rule α}
    (ht : (Sketch.leavesAll xs ++ rest).head? = some t) (hf : (f ()).Yields S xs rest 0) :
    (Rule.raiseExpected ks >>= f).Faults S xs rest t := by
  intro s H hs
  have htoken : s.token = t := H.wf.token_of_significant (hs ▸ ht)
  have hraise : (Rule.raiseExpected ks).Ensures s fun _ es u =>
      es = [] ∧ ∃ e : SyntaxError, e.span = t.span ∧ u = { s with raised := e :: s.raised } :=
    ⟨.raise s _, rfl, _, congrArg Token.span htoken, rfl⟩
  refine hraise.bind fun _ es u hu he => ?_
  obtain ⟨rfl, e, he, rfl⟩ := he
  refine (hf _ (H.run hu) hs).mono fun _ fs v _ hv => ?_
  obtain ⟨hv, hfs, errors, hlen, hraised⟩ := hv
  cases List.eq_nil_of_length_eq_zero hlen
  exact ⟨hv, hfs, e, he, hraised⟩

/-- What lies within the depth limit and goes well comes first, with a value that counts. -/
theorem parses_bind (xs ys : List (Sketch Token)) {p : α → Prop} {f : α → Rule β}
    (hxs : Within Token.kind S.limits.maxDepth S.bad [] xs 0)
    (h : r.Parses S [] xs (Sketch.leavesAll ys ++ rest) p)
    (hf : ∀ a, p a → (f a).Faults S ys rest t) : (r >>= f).Faults S (xs ++ ys) rest t := by
  intro s H hs
  rw [Sketch.leavesAll_append, List.append_assoc] at hs
  refine (h s H hs).bind fun a es u hr hu => ?_
  obtain ⟨ha, hu, errors, hcut, hraised⟩ := hu
  obtain ⟨hes, hlen⟩ := Cut.eq_of_within hxs hcut
  cases List.eq_nil_of_length_eq_zero hlen
  refine (hf a ha u (H.run hr) hu).mono fun b fs v _ hv => ?_
  obtain ⟨hv, rfl, e, he, hraised'⟩ := hv
  exact ⟨hv, by rw [Element.sketches_append, hes], e, he, by rw [hraised', hraised]; rfl⟩

theorem node (h : r.Faults S xs rest t) : (Rule.node k r).Faults S [.node k xs] rest t := by
  intro s H hs
  rw [Sketch.leavesAll_node] at hs
  refine .node ((h s.opened H.opened hs).mono fun a es u _ hu => ?_)
  obtain ⟨hu, hes, hraised⟩ := hu
  exact ⟨hu, by rw [Element.sketches_pending H.wf, Element.sketches_node, hes], hraised⟩

theorem bind_pure {g : α → β} (h : r.Faults S xs rest t) :
    (r >>= fun a => (Pure.pure (g a) : Rule β)).Faults S xs rest t :=
  fun s H hs => .bind_pure (h s H hs)

end Faults

end Rule

end Blueprint
