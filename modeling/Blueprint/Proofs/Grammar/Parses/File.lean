import Blueprint.Proofs.Grammar.Layout
import Blueprint.Proofs.Grammar.Parses.Value

/-!
# Files are parsed

Where the leaves of a regular forest are the tokens of a file, the children of the root are what the
depth limit leaves of the forest (`parse_cut`).
-/

namespace Blueprint

open NodeKind Form Token Sketch

namespace Rule

namespace Parses

variable {S : Script} {above : List NodeKind} {xs cs : List (Sketch Token)} {rest : List Token}

theorem eatAssignment {t : Token} (h : t.kind = .equals ∨ t.kind = .plusEquals) :
    Rule.eatAssignment.Parses S above [.leaf t] rest (· = true) := by
  rcases h with h | h
  · refine bind [.leaf t] [] (eat h) fun ok hok => ?_
    rw [hok]
    exact pure rfl
  · have hno : (Rule.eat .equals).Parses S above [] (t :: rest) (· = false) :=
      isAt_bind (k := .plusEquals) h (pure rfl)
    refine bind [] [.leaf t] hno fun ok hok => ?_
    rw [hok]
    exact eat h

variable (hS : S.Sound)
include hS

theorem blueprint (H : Regular Token.kind S.bad [.node .blueprint cs]) :
    (Rule.blueprint S.limits S.limits.maxDepth).Parses S [.file] [.node .blueprint cs] rest
      (·.isMatch = true) := by
  obtain ⟨n, a, ms, b, rfl, hn, ha, hb, hms⟩ := H.blueprint
  have hroom : levels [.pair, .members, .blueprint, .file] + S.limits.maxDepth =
      S.limits.maxDepth := Nat.zero_add _
  refine isAt_bind (k := .blueprintTypeName) hn ?_
  refine nodeOutcome_flat (p := fun _ => True) (Nat.zero_le _) (by decide) ?_
  refine bind [.node .blueprintType [.leaf n]] (.leaf a :: (ms ++ [.leaf b]))
    (node ?_ (.inl (by decide)) bump)
    fun _ _ => body hS (parsesValue hS nofun hroom) ha hb (Nat.zero_le _) hms
  rw [reach_of_ne (by decide)]
  exact Nat.zero_le _

theorem variableDef (H : Regular Token.kind S.bad [.node .variable cs])
    (hrest : Ends (rest.map Token.kind)) :
    (Rule.variableDef S.limits S.limits.maxDepth).Parses S [.file] [.node .variable cs] rest
      (·.isMatch = true) := by
  obtain ⟨a, b, vs, rfl, ha, hb, Hv⟩ := H.variableDef
  have hroom : levels [.variable, .file] + S.limits.maxDepth = S.limits.maxDepth := Nat.zero_add _
  refine isAt_bind (k := .variableName) ha (view_bind_any fun start => ?_)
  refine nodeOutcome_flat (p := fun _ => True) (Nat.zero_le _) (by decide) ?_
  refine bind [.leaf a] [.leaf b, .node .value vs] bump fun _ _ => ?_
  refine bind [.leaf b] [.node .value vs] (eatAssignment hb) fun ok hok => ?_
  rw [hok]
  have hvalue := parsesValue hS (by nofun) hroom
  refine bind [.node .value vs] [] (hvalue.parses vs rest Hv hrest) fun o ho => ?_
  cases o with
  | complete => exact pure trivial
  | incomplete => exact pure trivial
  | noMatch => cases ho

omit hS in
/-- An item starts with its name. -/
theorem headD_item {k : NodeKind} (H : Regular Token.kind S.bad (.node k cs :: xs))
    (hk : k = .blueprint ∨ k = .variable) :
    (ahead (.node k cs :: xs) rest).headD .eof =
      if k = .blueprint then .blueprintTypeName else .variableName := by
  rcases hk with rfl | rfl
  · obtain ⟨n, a, ms, b, rfl, hn, -⟩ := H.head.blueprint
    exact hn
  · obtain ⟨a, b, vs, rfl, ha, -⟩ := H.head.variableDef
    exact ha

theorem itemOrSkip {k : NodeKind} (H : Regular Token.kind S.bad [.node k cs])
    (hk : k = .blueprint ∨ k = .variable) (hrest : Ends (rest.map Token.kind)) :
    (Rule.itemOrSkip S.limits S.limits.maxDepth).Parses S [.file] [.node k cs] rest
      fun _ => True := by
  refine bind [.node k cs] [] (p := fun o : Outcome => o.isMatch = true) ?_ fun o ho => ?_
  · refine current_bind (headD_item H hk) ?_
    rcases hk with rfl | rfl
    · exact blueprint hS H
    · exact variableDef hS H hrest
  · rw [ho]
    exact pure trivial

omit hS in
/-- The first item, and the others. -/
theorem item_cases (hxs : symbols Token.kind xs ∈ NodeKind.file.production.matches') :
    xs = [] ∨ ∃ k cs ys, xs = .node k cs :: ys ∧ (k = .blueprint ∨ k = .variable) ∧
      symbols Token.kind ys ∈ NodeKind.file.production.matches' := by
  rcases mem_many_iff.1 hxs with hnil | ⟨_, rfl | rfl, _, hys, h⟩
  · exact .inl ((symbols_eq_nil_iff _).1 hnil)
  · obtain ⟨cs, ys, rfl, rfl⟩ := (symbols_eq_node_cons_iff _).1 h.symm
    exact .inr ⟨_, cs, ys, rfl, .inl rfl, hys⟩
  · obtain ⟨cs, ys, rfl, rfl⟩ := (symbols_eq_node_cons_iff _).1 h.symm
    exact .inr ⟨_, cs, ys, rfl, .inr rfl, hys⟩

omit hS in
theorem ends_items (H : Regular Token.kind S.bad xs)
    (hxs : symbols Token.kind xs ∈ NodeKind.file.production.matches')
    (hrest : Ends (rest.map Token.kind)) : Ends (ahead xs rest) := by
  rcases item_cases hxs with rfl | ⟨k, cs, ys, rfl, hk, -⟩
  · exact hrest
  · intro he
    have hhead : (ahead (.node k cs :: ys) rest).headD .eof = _ := headD_item H hk
    rw [List.headD_eq_head?_getD, he] at hhead
    rcases hk with rfl | rfl <;> cases hhead

omit hS in
theorem leavesAll_item_ne_nil {k : NodeKind} (H : Regular Token.kind S.bad (.node k cs :: xs))
    (hk : k = .blueprint ∨ k = .variable) : leavesAll cs ≠ [] := by
  intro hnil
  have hhead : (ahead [.node k cs] []).headD .eof = _ := headD_item H.head hk
  rw [ahead, leavesAll_node, hnil] at hhead
  rcases hk with rfl | rfl <;> cases hhead

/-- In front of the rest of a file its first items are parsed, with a round for each token at most,
and then it goes on from there. -/
theorem items_front (H : Regular Token.kind S.bad xs)
    (hxs : symbols Token.kind xs ∈ NodeKind.file.production.matches')
    (hrest : Ends (rest.map Token.kind)) {budget : Nat} {s : State} (Hs : Reading S s)
    (hs : significant s.rest = leavesAll xs ++ rest) (hbudget : (leavesAll xs).length ≤ budget) :
    ∃ es t errors budget', Run s es t ∧ significant t.rest = rest ∧
      budget ≤ (leavesAll xs).length + budget' ∧
      Cut S.limits.maxDepth S.bad [.file] xs (Element.sketches es) errors ∧
      t.raised = errors.reverse ++ s.raised ∧
      Rule.items S.limits S.limits.maxDepth budget s =
        ⟨(), es ++ (Rule.items S.limits S.limits.maxDepth budget' t).emitted,
          (Rule.items S.limits S.limits.maxDepth budget' t).state⟩ := by
  induction budget generalizing xs s with
  | zero =>
    rcases item_cases hxs with rfl | ⟨k, cs, ys, rfl, hk, -⟩
    · exact ⟨[], s, [], 0, .refl s, hs, Nat.zero_le _, .nil, rfl, rfl⟩
    · have hpos := List.length_pos_iff.2 (leavesAll_item_ne_nil H hk)
      rw [leavesAll, leaves, List.length_append] at hbudget
      omega
  | succ budget ih =>
    rcases item_cases hxs with rfl | ⟨k, cs, ys, rfl, hk, hys⟩
    · exact ⟨[], s, [], budget + 1, .refl s, hs, Nat.le_add_left _ _, .nil, rfl, rfl⟩
    have hpos := List.length_pos_iff.2 (leavesAll_item_ne_nil H hk)
    rw [leavesAll, leaves, List.length_append] at hbudget ⊢
    have hs' : significant s.rest = leavesAll [.node k cs] ++ (leavesAll ys ++ rest) := by
      rw [hs, leavesAll_node, leavesAll, leaves, List.append_assoc]
    obtain ⟨hrun, -, hu, errors, hcut, hraised⟩ :=
      itemOrSkip hS H.head hk (ends_items H.tail hys hrest) s Hs hs'
    obtain ⟨es, t, errors', budget', hrun', ht, hlen, hcut', hraised', heq⟩ :=
      ih H.tail hys (Hs.run hrun) hu (by omega)
    have hkinds {s : State} {ts : List Token} (h : significant s.rest = ts) :
        s.kinds.length = ts.length := by
      rw [State.kinds, kindsOf_eq_map_significant, h, List.length_map]
    have hlt := hkinds hu
    have hle := hkinds hs'
    rw [leavesAll_node, List.length_append] at hle
    have hmoves : (Rule.itemOrSkip S.limits S.limits.maxDepth s).state.position ≠ s.position := by
      rw [Ne, hrun.position_eq_iff Hs.wf]
      omega
    have hend : s.atEof = false := by
      rw [← Bool.not_eq_true, Hs.wf.atEof_iff, ← List.length_eq_zero_iff]
      omega
    refine ⟨_, t, errors ++ errors', budget', hrun.trans hrun', ht, by omega, ?_, ?_, ?_⟩
    · rw [Element.sketches_append]
      exact hcut.append hcut'
    · rw [hraised', hraised, List.reverse_append, List.append_assoc]
    · rw [items_succ _ _ hend hmoves, heq, List.append_assoc]

theorem items (budget : Nat) (H : Regular Token.kind S.bad xs)
    (hxs : symbols Token.kind xs ∈ NodeKind.file.production.matches')
    (hbudget : (leavesAll xs).length ≤ budget) :
    (Rule.items S.limits S.limits.maxDepth budget).Parses S [.file] xs [] fun _ => True := by
  intro s Hs hs
  obtain ⟨es, t, errors, budget', hrun, ht, -, hcut, hraised, heq⟩ :=
    items_front hS H hxs (by simp [Ends]) Hs hs hbudget
  have hend : t.atEof = true := by
    rw [(hrun.wf Hs.wf).atEof_iff, State.kinds, kindsOf_eq_map_significant, ht]
    rfl
  rw [items_of_atEof _ _ hend, List.append_nil] at heq
  rw [Ensures, heq]
  exact ⟨hrun, trivial, ht, errors, hcut, hraised⟩

/-- The contents of a file, to its end. -/
theorem contents (H : Regular Token.kind S.bad xs)
    (hxs : symbols Token.kind xs ∈ NodeKind.file.production.matches') :
    (Rule.contents S.limits S.limits.maxDepth S.limits.maxIterations).Parses S [.file] xs []
      fun _ => True := by
  have hitems := of_length fun hlen => items hS S.limits.maxIterations H hxs
    (List.append_nil (leavesAll xs) ▸ hlen)
  rw [← List.append_nil xs]
  refine bind xs [] hitems fun _ _ => ?_
  exact view_bind (b := true) (fun s H hs => H.atEof_iff.2 hs) (pure trivial)

end Parses

end Rule

/-- A text without errors has a regular tree. -/
theorem parse_regular {source : String} {limits : Limits}
    (hready : Ready limits (State.start source)) (hclean : (parse source limits).errors = []) :
    ∃ xs, Regular Token.kind (fun _ => False) xs ∧
      Sketch.symbols Token.kind xs ∈ NodeKind.file.production.matches' ∧
      significant (TokenStream.ofChars source.toList).body = Sketch.leavesAll xs ∧
      Element.sketches (parse source limits).tree.root.children =
        xs ++ [.leaf (TokenStream.ofChars source.toList).eof] := by
  obtain ⟨hr, hm, hend⟩ := Rule.contents_makes hready
  have hwf := State.wf_start source
  have hraised := (State.errors_eq_nil_iff _).1 hclean
  have hsame : (Rule.contents limits limits.maxDepth limits.maxIterations
      (State.start source)).state.raised = [] := by
    have h := hraised
    change (Rule.fileBody limits limits.maxDepth (State.start source)).state.raised = [] at h
    rwa [Rule.fileBody_apply] at h
  refine ⟨_, hm.fits.regular hsame, ?_, ?_, ?_⟩
  · rw [Element.symbols_sketches]
    have hword := hm.production hsame
    rwa [Symbol.map_plain_eq_self hword (by decide) (by decide)] at hword
  · rw [Element.leavesAll_sketches]
    have hleaves : Element.leavesAll _ ++ _ = (TokenStream.ofChars source.toList).toList :=
      hr.leavesAll_append_unattached.trans (State.unattached_ofStream _)
    rw [State.unattached, (hr.wf hwf).kinds_eq_nil_iff.1 hend, List.append_nil, hr.eof_eq,
      TokenStream.toList, ← List.append_assoc] at hleaves
    rw [← List.append_cancel_right hleaves, significant_append,
      significant_eq_nil (hr.wf hwf).isTrivia_pending, List.append_nil]
  · change Element.sketches (Rule.fileBody limits limits.maxDepth (State.start source)).emitted = _
    rw [Rule.fileBody_apply, Element.sketches_append, Element.sketches_pending (hr.wf hwf),
      Element.sketches_token (hr.wf hwf).isTrivia_eof, hr.eof_eq]
    rfl

theorem reading_start {source : String} {limits : Limits} {bad : Sketch Token → Prop}
    (hready : Ready limits (State.start source)) :
    Reading ⟨limits, tokenize source, bad⟩ (State.start source) := by
  refine ⟨hready, ?_⟩
  rw [tokenize, ← State.unattached_ofStream]
  exact List.suffix_rfl

/-- What the contents of a file are parsed to is what the root has, with the errors. -/
theorem parse_of_ensures {source : String} {limits : Limits}
    {Q : List Element → State → Prop}
    (h : (Rule.contents limits limits.maxDepth limits.maxIterations).Ensures (State.start source)
      fun _ es t => Q es t) :
    ∃ es t, Q es t ∧ Element.sketches (parse source limits).tree.root.children =
        Element.sketches es ++ [.leaf (TokenStream.ofChars source.toList).eof] ∧
      (parse source limits).errors = (SyntaxError.recorded t.raised).reverse := by
  obtain ⟨hr, hq⟩ := h
  have hwf := hr.wf (State.wf_start source)
  refine ⟨_, _, hq, ?_, ?_⟩
  · change Element.sketches (Rule.fileBody limits limits.maxDepth (State.start source)).emitted = _
    rw [Rule.fileBody_apply, Element.sketches_append, Element.sketches_pending hwf,
      Element.sketches_token hwf.isTrivia_eof, hr.eof_eq]
    rfl
  · change (SyntaxError.recorded (Rule.fileBody limits limits.maxDepth
      (State.start source)).state.raised).reverse = _
    rw [Rule.fileBody_apply]

/-- Where the leaves of a regular forest are the tokens of a file, the children of the root are what
the depth limit leaves of the forest, and the end of the file. -/
theorem parse_cut {source : String} {limits : Limits} {bad : Sketch Token → Prop}
    (hS : (⟨limits, tokenize source, bad⟩ : Script).Sound)
    (hready : Ready limits (State.start source)) {xs : List (Sketch Token)}
    (H : Regular Token.kind bad xs)
    (hxs : symbols Token.kind xs ∈ NodeKind.file.production.matches')
    (hleaves : significant (TokenStream.ofChars source.toList).body = leavesAll xs) :
    ∃ ys errors, Cut limits.maxDepth bad [.file] xs ys errors ∧
      Element.sketches (parse source limits).tree.root.children =
        ys ++ [.leaf (TokenStream.ofChars source.toList).eof] ∧
      (parse source limits).errors =
        (SyntaxError.recorded errors.reverse).reverse := by
  have hreading := @reading_start source limits bad hready
  have hstart : significant (State.start source).rest = leavesAll xs ++ [] := by
    rw [List.append_nil, ← hleaves, significant_start]
  obtain ⟨es, t, ⟨-, hrest, errors, hcut, hraised⟩, hchildren, herrors⟩ :=
    parse_of_ensures (Rule.Parses.contents hS H hxs _ hreading hstart)
  refine ⟨_, errors, hcut, hchildren, herrors.trans ?_⟩
  refine congrArg (fun raised => (SyntaxError.recorded raised).reverse) (hraised.trans ?_)
  exact List.append_nil _

end Blueprint
