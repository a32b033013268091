import Blueprint.Proofs.Grammar.Settles
import Blueprint.Proofs.Grammar.Truncates
import Blueprint.Proofs.Token.Joint
import Blueprint.Proofs.Tree.Leaves

/-!
# A clean text in front of another one

A text without errors does not notice what comes after it on a new line, when that starts with the
name of a module or of a variable: its items are parsed as they are alone (`Run.eq_of_sketches`), in
front of the same tokens. And what comes after does not notice the text in front. The token that an
item starts with is consumed before the grammar looks back, so the items after that one are parsed
in the state that they are parsed in alone, shifted (`Rule.contents_behind`). Together, the tree of
both texts is that of the one and that of the other (`parse_joined`).
-/

namespace Blueprint

open Element Token

/-! ### What stands in front of an item -/

/-- The state with something else in front of it. -/
def State.behind (s : State) (us : List Token) (p : Option Span) : State :=
  { s with pending := us, previous := p }

namespace Rule

variable {α β : Type}

/-- The rule does not look at the token that was consumed last, where there is another one to
consume. -/
def Forgets (r : Rule α) : Prop :=
  ∀ (s : State) (p : Option Span), s.rest ≠ [] → r { s with previous := p } = r s

namespace Forgets

theorem bump : Rule.bump.Forgets := by
  intro s p hs
  obtain ⟨t, ts, hts⟩ := List.exists_cons_of_ne_nil hs
  rw [bump_cons hts, bump_cons (s := { s with previous := p }) hts]
  rfl

theorem bind {r : Rule α} (h : r.Forgets) {f : α → Rule β} : (r >>= f).Forgets := by
  intro s p hs
  rw [bind_apply, bind_apply, h s p hs]

theorem node {r : Rule α} {kind : NodeKind} (h : r.Forgets) : (Rule.node kind r).Forgets := by
  intro s p hs
  have hopened : r (State.opened { s with previous := p }) = r s.opened := h s.opened p hs
  rw [node_apply, node_apply, hopened]

end Forgets

/-- Whatever stands in front of the state, the rule emits it in front of one element, and does the
same. -/
def Heads (r : Rule α) (s : State) (p : α → Prop) : Prop :=
  ∃ a e t, p a ∧ ∀ us q, r (s.behind us q) = ⟨a, us.map .token ++ [e], t⟩

namespace Heads

variable {s : State} {p : α → Prop}

theorem view_bind {g : State → β} {f : β → Rule α} (hg : ∀ us q, g (s.behind us q) = g s)
    (h : (f (g s)).Heads s p) : (view g >>= f).Heads s p := by
  obtain ⟨a, e, t, ha, h⟩ := h
  refine ⟨a, e, t, ha, fun us q => ?_⟩
  rw [← h us q, bind_apply, view_apply, hg]
  rfl

theorem bind_pure {r : Rule β} {f : β → Rule α} {q : β → Prop} {a : α} (h : r.Heads s q)
    (hf : ∀ b, q b → f b = Pure.pure a) (ha : p a) : (r >>= f).Heads s p := by
  obtain ⟨b, e, t, hb, h⟩ := h
  refine ⟨a, e, t, ha, fun us q => ?_⟩
  rw [bind_apply, h, hf b hb, pure_apply, List.append_nil]

/-- What stands in front of a node stays outside. -/
theorem nodeOutcome {r : Rule Bool} {kind : NodeKind} (h : r.Forgets) (hs : s.rest ≠ []) :
    (Rule.nodeOutcome kind r).Heads s (·.isMatch = true) := by
  refine ⟨.ofNode s.nodes (r s.opened).value,
    .node s.nodes kind ((r s.opened).state.nodeSpan (r s.opened).emitted) (r s.opened).emitted,
    (r s.opened).state, ?_, fun us q => ?_⟩
  · cases (r s.opened).value <;> rfl
  · have hopened : r (s.behind us q).opened = r s.opened := h s.opened q hs
    rw [Rule.nodeOutcome, bind_apply, node_apply, hopened, pure_apply, List.append_nil]
    rfl

end Heads

variable (limits : Limits) {s : State}

theorem heads_item (room : Nat) (hs : s.rest ≠ [])
    (hname : s.current ∈ [TokenKind.blueprintTypeName, .variableName]) :
    (item limits room).Heads s (·.isMatch = true) := by
  refine .view_bind (fun _ _ => rfl) ?_
  simp only [List.mem_cons, List.not_mem_nil, or_false] at hname
  rcases hname with hname | hname
  · rw [hname]
    refine .view_bind (fun _ _ => rfl) ?_
    rw [hname]
    exact .nodeOutcome Forgets.bump.node.bind hs
  · rw [hname]
    refine .view_bind (fun _ _ => rfl) ?_
    rw [hname]
    exact .view_bind (fun _ _ => rfl) (.nodeOutcome Forgets.bump.bind hs)

theorem heads_itemOrSkip (room : Nat) (hs : s.rest ≠ [])
    (hname : s.current ∈ [TokenKind.blueprintTypeName, .variableName]) :
    (itemOrSkip limits room).Heads s fun _ => True :=
  (heads_item limits room hs hname).bind_pure (fun _ ho => if_pos ho) trivial

variable {limits : Limits}

/-- Behind another text an item is the same one, shifted. -/
theorem itemOrSkip_behind {d : Shift} (H : s.WF)
    (hname : s.current ∈ [TokenKind.blueprintTypeName, .variableName])
    (hlen : s.kinds.length < limits.maxIterations) (room : Nat) (us : List Token)
    (p : Option Span) :
    ∃ e t, itemOrSkip limits room s = ⟨(), s.pending.map .token ++ [e], t⟩ ∧
      itemOrSkip limits room ((d.state s).behind us p) =
        ⟨(), us.map .token ++ [d.element e], d.state t⟩ := by
  have E : limits.Enough (s.kinds.length + 1) limits := ⟨rfl, hlen, hlen⟩
  have hs : s.rest ≠ [] := by
    rw [Ne, ← H.kinds_eq_nil_iff, ← H.atEof_iff]
    exact beq_iff_eq.not.2 fun hs => by simp [hs] at hname
  obtain ⟨_, e, t, -, h⟩ := heads_itemOrSkip limits room hs hname
  obtain ⟨_, e', t', -, h'⟩ := @heads_itemOrSkip limits (d.state s) room
    (mt List.map_eq_nil_iff.1 hs) (by rwa [Shift.current_state])
  have hitem : itemOrSkip limits room s = ⟨(), s.pending.map .token ++ [e], t⟩ :=
    h s.pending s.previous
  have hshifted := (mirrors_itemOrSkip (d := d) E room H (Nat.lt_succ_self _)).reply_eq
  have hbehind : itemOrSkip limits room (d.state s) =
      ⟨(), (s.pending.map d.token).map .token ++ [e'], t'⟩ :=
    h' (d.state s).pending (d.state s).previous
  rw [hbehind, hitem, Reply.mk.injEq, Shift.elements_append, Shift.elements_map_token] at hshifted
  obtain ⟨-, he, rfl⟩ := hshifted
  obtain ⟨rfl, -⟩ := List.cons.inj (List.append_cancel_left he)
  exact ⟨e, t, hitem, h' us p⟩

theorem contents_of_atEof {budget : Nat} (room : Nat) (h : s.atEof = true) :
    contents limits room budget s = ⟨(), [], s⟩ := by
  rw [contents, bind_apply, items_of_atEof _ _ h, leftover_of_atEof h]
  rfl

/-- An item that takes a token, and the contents of the file after it. -/
theorem contents_succ {budget : Nat} {t : State} {es : List Element} (room : Nat)
    (hend : s.atEof = false) (hmoved : t.position ≠ s.position)
    (hitem : itemOrSkip limits room s = ⟨(), es, t⟩) :
    contents limits room (budget + 1) s =
      ⟨(), es ++ (contents limits room budget t).emitted,
        (contents limits room budget t).state⟩ := by
  have hitems := @items_succ limits room budget s hend (by rwa [hitem])
  rw [hitem] at hitems
  simp only [contents, bind_apply, hitems, List.append_assoc]

/-- Where the contents of a file start with an item, they are the same behind another text,
shifted. -/
theorem contents_behind {d : Shift} {budget budget' : Nat} (H : s.WF)
    (hname : s.current ∈ [TokenKind.blueprintTypeName, .variableName])
    (hlen : s.kinds.length < limits.maxIterations) (hb : s.kinds.length < budget)
    (hb' : s.kinds.length < budget') (room : Nat) (us : List Token) (p : Option Span) :
    ∃ es t, contents limits room budget s = ⟨(), s.pending.map .token ++ es, t⟩ ∧
      contents limits room budget' ((d.state s).behind us p) =
        ⟨(), us.map .token ++ d.elements es, d.state t⟩ := by
  have hcurrent : s.current ≠ .eof := fun hs => by simp [hs] at hname
  have hend : s.atEof = false := beq_eq_false_iff_ne.2 hcurrent
  have hend' : ((d.state s).behind us p).atEof = false := (d.atEof_state s).trans hend
  obtain ⟨hr, hshorter⟩ := @itemOrSkip_shorter s limits H (by omega) hcurrent room
  obtain ⟨e, t, hitem, hitem'⟩ := @itemOrSkip_behind s limits d H hname hlen room us p
  rw [hitem] at hr hshorter
  have hmoved : t.position ≠ s.position := mt (hr.position_eq_iff H).1 (Nat.ne_of_lt hshorter)
  have hmoved' : (d.state t).position ≠ ((d.state s).behind us p).position := by
    have hposition : ((d.state s).behind us p).position = _ := d.position_state s
    rw [hposition, d.position_state]
    omega
  obtain ⟨budget, rfl⟩ := Nat.exists_eq_add_of_lt hb
  obtain ⟨budget', rfl⟩ := Nat.exists_eq_add_of_lt hb'
  have E : limits.Enough s.kinds.length limits := ⟨rfl, Nat.le_of_lt hlen, Nat.le_of_lt hlen⟩
  have hrest := (@mirrors_contents d _ _ _ E room _ _ (Nat.le_add_right _ budget)
    (Nat.le_add_right _ budget') _ (hr.wf H) hshorter).reply_eq
  have hfirst := @contents_succ _ _ (s.kinds.length + budget) _ _ room hend hmoved hitem
  generalize contents limits room (s.kinds.length + budget) t = rest at hfirst hrest
  refine ⟨e :: rest.emitted, rest.state, ?_, ?_⟩
  · rw [hfirst, List.append_assoc, List.singleton_append]
  · rw [contents_succ room hend' hmoved' hitem', hrest, List.append_assoc]
    rfl

end Rule

/-! ### What comes after a clean text -/

/-- Trivia in front is dropped. -/
theorem Token.dropWhile_isTrivia {us vs : List Token} (hus : ∀ t ∈ us, t.isTrivia = true)
    (hvs : ∀ t ∈ vs.head?, t.isTrivia = false) : (us ++ vs).dropWhile isTrivia = vs := by
  rw [List.dropWhile_append_of_pos hus]
  cases vs with
  | nil => rfl
  | cons v vs => exact List.dropWhile_cons_of_neg (Bool.eq_false_iff.1 (hvs v rfl))

namespace State

theorem WF.dropWhile_unattached {s : State} (H : s.WF) :
    s.unattached.dropWhile isTrivia = s.rest ++ [s.eof] := by
  rw [unattached, List.append_assoc]
  exact dropWhile_isTrivia H.isTrivia_pending (H.opened.isTrivia_head rfl)

theorem WF.unraised {s : State} (H : s.WF) : ({ s with raised := [] } : State).WF :=
  { H with }

/-- A state with the tokens of another one still to come, shifted, is that one shifted, behind
something. -/
theorem WF.eq_behind {s u : State} {d : Shift} {us : List Token} (H : s.WF) (Hu : u.WF)
    (hus : ∀ t ∈ us, t.isTrivia = true)
    (h : s.unattached = us ++ (u.rest ++ [u.eof]).map d.token)
    (hnodes : s.nodes = u.nodes + d.nodes) (hraised : s.raised = u.raised.map d.error) :
    s = (d.state u).behind s.pending s.previous := by
  have hhead : ∀ t ∈ ((u.rest ++ [u.eof]).map d.token).head?, t.isTrivia = false := by
    intro t ht
    rw [List.head?_map, Option.mem_map] at ht
    obtain ⟨v, hv, rfl⟩ := ht
    exact Hu.opened.isTrivia_head rfl v hv
  have hrest := H.dropWhile_unattached
  rw [h, dropWhile_isTrivia hus hhead, List.map_append] at hrest
  obtain ⟨hrest, heof⟩ := List.append_inj' hrest rfl
  cases s
  simp only [behind, Shift.state, State.mk.injEq, true_and]
  exact ⟨hrest.symm, (List.cons.inj heof).1.symm, hnodes, hraised⟩

end State

namespace Run

variable {a b : String} {es fs : List Element} {s t t' : State} {front us vs : List Token}

/-- The tokens of a run over the front of a text are those of the front, but for trivia at the end of
it. -/
theorem isPrefix_leavesAll (H : Run (State.start a) es s) (hfilled : Sketch.Filled (sketches es))
    (ha : (TokenStream.ofChars a.toList).body = front ++ us)
    (hleaves : significant front = Sketch.leavesAll (sketches es)) : leavesAll es <+: front := by
  have hall : leavesAll es ++ s.unattached = tokenize a :=
    H.leavesAll_append_unattached.trans (State.unattached_ofStream _)
  rw [tokenize, TokenStream.toList, ha, List.append_assoc] at hall
  rw [leavesAll_sketches] at hleaves
  exact Sketch.isPrefix_of_filter hall hleaves.symm (H.snug (State.wf_start a) hfilled).2

/-- Runs from one place over the same tokens emit the same, when the sketches are the same. -/
theorem eq_of_leaves {s' : State} {ts us : List Token} {p : Position} (H : Run s es t)
    (H' : Run s' fs t') (hs : s.Stands ts p) (hs' : s'.Stands us p) (hnodes : s'.nodes = s.nodes)
    (hfilled : Sketch.Filled (sketches es)) (hsketches : sketches fs = sketches es)
    (hleaves : leavesAll fs = leavesAll es) : fs = es := by
  have hsnug := (H.snug hs.wf hfilled).1
  have hsnug' := (H'.snug hs'.wf (hsketches ▸ hfilled)).1
  obtain ⟨q, -, T⟩ := H.tiles hs
  obtain ⟨q', -, T'⟩ := H'.tiles hs'
  have hunnumbered := hsnug'.unnumberedAll_eq hsnug T' T hleaves hsketches
  have hids := H.range_nodes_append_idsAll
  have hids' := H'.range_nodes_append_idsAll
  have hlast : t.nodes = t'.nodes := by
    have hlen := congrArg List.length hids
    have hlen' := congrArg List.length hids'
    simp only [List.length_append, List.length_range, length_idsAll_eq hunnumbered, hnodes]
      at hlen hlen'
    exact hlen.symm.trans hlen'
  rw [hlast, ← hids', hnodes] at hids
  exact eq_of_unnumberedAll hunnumbered (List.append_cancel_left hids).symm

/-- Runs from one place in front of the same tokens emit the same, when the sketches are the same. -/
theorem eq_of_unattached {s' : State} {ts us : List Token} {p : Position} (H : Run s es t)
    (H' : Run s' fs t') (hs : s.Stands ts p) (hs' : s'.Stands us p) (hnodes : s'.nodes = s.nodes)
    (hnext : s'.unattached = s.unattached) (hfilled : Sketch.Filled (sketches es))
    (hsketches : sketches fs = sketches es) : fs = es := by
  have hfilter : significant (leavesAll fs) = significant (leavesAll es) := by
    rw [← leavesAll_sketches, ← leavesAll_sketches, hsketches]
  have hall : leavesAll fs ++ t'.unattached = leavesAll es ++ t.unattached := by
    rw [H'.leavesAll_append_unattached, hnext, H.leavesAll_append_unattached]
  have hsame := Sketch.eq_of_filter hall hfilter (H'.snug hs'.wf (hsketches ▸ hfilled)).2
    (H.snug hs.wf hfilled).2
  exact H.eq_of_leaves H' hs hs' hnodes hfilled hsketches hsame

/-- Two texts that start alike are parsed alike as far as that, when the sketches are the same. -/
theorem eq_of_sketches (H : Run (State.start a) es s) (H' : Run (State.start b) fs t)
    (hfilled : Sketch.Filled (sketches es)) (hsketches : sketches fs = sketches es)
    (ha : (TokenStream.ofChars a.toList).body = front ++ us)
    (hb : (TokenStream.ofChars b.toList).body = front ++ vs)
    (hleaves : significant front = Sketch.leavesAll (sketches es)) : fs = es := by
  have hfilled' : Sketch.Filled (sketches fs) := hsketches ▸ hfilled
  obtain ⟨cs, hcs⟩ := H.isPrefix_leavesAll hfilled ha hleaves
  obtain ⟨ds, hds⟩ := H'.isPrefix_leavesAll hfilled' hb (hsketches ▸ hleaves)
  have hfilter : significant (leavesAll fs) = significant (leavesAll es) := by
    rw [← leavesAll_sketches, ← leavesAll_sketches, hsketches]
  have hsame := Sketch.eq_of_filter (hds.trans hcs.symm) hfilter
    (H'.snug (State.wf_start b) hfilled').2 (H.snug (State.wf_start a) hfilled).2
  exact H.eq_of_leaves H' (State.stands_start a) (State.stands_start b) rfl hfilled hsketches hsame

/-- After what comes in front of another text, the state is that in front of the other text,
shifted. -/
theorem exists_behind {c : String} {d : Shift} {gap lead rest : List Token}
    (hb : (TokenStream.ofChars b.toList).body = lead ++ rest)
    (hlead : ∀ t ∈ lead, t.isTrivia = true)
    (hhead : ∀ t ∈ (rest ++ [(TokenStream.ofChars b.toList).eof]).head?, t.isTrivia = false)
    (hc : (TokenStream.ofChars c.toList).body = front ++ (gap ++ rest.map d.token))
    (heof : (TokenStream.ofChars c.toList).eof = d.token (TokenStream.ofChars b.toList).eof)
    (hgap : ∀ t ∈ gap, t.isTrivia = true) (H : Run (State.start c) es s)
    (hfilled : Sketch.Filled (sketches es))
    (hleaves : significant front = Sketch.leavesAll (sketches es)) :
    ∃ n us p, { s with raised := [] } =
      (({ d with nodes := n } : Shift).state (State.start b)).behind us p := by
  have Hb := State.wf_start b
  have hunattached : (State.start b).unattached = tokenize b := State.unattached_ofStream _
  rw [tokenize, TokenStream.toList, hb, List.append_assoc] at hunattached
  have hahead := Hb.dropWhile_unattached
  rw [hunattached, dropWhile_isTrivia hlead hhead] at hahead
  obtain ⟨cs, hcs⟩ := H.isPrefix_leavesAll hfilled hc hleaves
  have htrivia : ∀ t ∈ cs, t.isTrivia = true := by
    rw [← hcs, leavesAll_sketches, significant_append, List.append_right_eq_self] at hleaves
    simpa [significant] using hleaves
  have hall : leavesAll es ++ s.unattached = tokenize c :=
    H.leavesAll_append_unattached.trans (State.unattached_ofStream _)
  rw [tokenize, TokenStream.toList, hc, heof, ← hcs] at hall
  simp only [List.append_assoc] at hall
  have hnodes : s.nodes = 1 + (s.nodes - 1) := by
    have hids := congrArg List.length H.range_nodes_append_idsAll
    rw [List.length_append, List.length_range, List.length_range] at hids
    change 1 + _ = _ at hids
    omega
  have htrivia' : ∀ t ∈ cs ++ gap, t.isTrivia = true := by
    intro t ht
    exact (List.mem_append.1 ht).elim (htrivia t) (hgap t)
  have hnext : s.unattached =
      (cs ++ gap) ++ ((State.start b).rest ++ [(State.start b).eof]).map d.token := by
    rw [List.append_cancel_left hall, ← hahead, List.map_append, List.append_assoc]
    rfl
  exact ⟨s.nodes - 1, s.pending, s.previous,
    (H.wf (State.wf_start c)).unraised.eq_behind Hb htrivia' hnext hnodes rfl⟩

end Run

/-- What a text starts with, trivia left out. -/
theorem exists_head_kindsOf {b : String} {ks : List TokenKind} (hks : .eof ∉ ks)
    (h : ∃ t ∈ (significant (tokenize b)).head?, t.kind ∈ ks) :
    ∃ k ∈ (kindsOf (TokenStream.ofChars b.toList).body).head?, k ∈ ks := by
  obtain ⟨t, ht, hkind⟩ := h
  rw [kindsOf_eq_map_significant, List.head?_map]
  rw [tokenize, TokenStream.toList, significant_append] at ht
  cases hbody : significant (TokenStream.ofChars b.toList).body with
  | nil =>
    rw [hbody] at ht
    cases ht
    exact absurd hkind hks
  | cons u us =>
    rw [hbody] at ht
    cases ht
    exact ⟨_, rfl, hkind⟩

/-- A text without errors is closed at its end, unless it ends in a comment that is not. -/
theorem CleanItems.closed {ts : TokenStream} {depth : Nat} {xs : List (Sketch Token)}
    (H : CleanItems depth xs) (hleaves : significant ts.body = Sketch.leavesAll xs)
    (hcomment : ∀ t ∈ ts.body.getLast?, ¬Lexeme.OpenComment t.chars) : ts.Closed where
  kind_ne_error t ht hkind := by
    have hmem : t ∈ Sketch.leavesAll xs := by
      rw [← hleaves, significant, List.mem_filter, Token.isTrivia, hkind]
      exact ⟨ht, rfl⟩
    exact H.regular.kind_ne_error H.production hmem hkind
  not_openComment := hcomment
  balanced := by
    rw [kindsOf_eq_map_significant, hleaves]
    exact H.regular.balanced_items H.production
  awaitsValue_eq k hk := by
    rw [kindsOf_eq_map_significant, hleaves, List.getLast?_map, Option.mem_map] at hk
    obtain ⟨t, ht, rfl⟩ := hk
    rw [TokenKind.awaitsValue, ← Bool.not_eq_true, List.contains_iff_mem]
    exact H.regular.last_not_mem H.production ht

/-! ### Texts -/

theorem Cursor.map_node_childNodes (c : Cursor) :
    c.childNodes.map Cursor.node = c.node.children.filterMap Element.asNode? := by
  rw [Cursor.childNodes_eq, List.map_filterMap]
  congr 1
  funext e
  cases e <;> rfl

theorem Element.filterMap_asNode?_map_token (ts : List Token) :
    (ts.map .token).filterMap Element.asNode? = [] := by
  simp [List.filterMap_map, Function.comp_def, Element.asNode?]

/-- The child nodes of a file and its errors, by its contents. -/
theorem parse_of_contents {source : String} {limits : Limits} {es : List Element} {t : State}
    (h : Rule.contents limits limits.maxDepth limits.maxIterations (State.start source) =
      ⟨(), es, t⟩) :
    (parse source limits).tree.cursor.childNodes.map Cursor.node =
        es.filterMap Element.asNode? ∧
      (parse source limits).errors = (SyntaxError.recorded t.raised).reverse := by
  have hbody := Rule.fileBody_apply limits limits.maxDepth (State.start source)
  rw [h] at hbody
  constructor
  · rw [Cursor.map_node_childNodes]
    change (Rule.fileBody limits limits.maxDepth (State.start source)).emitted.filterMap _ = _
    rw [hbody, List.filterMap_append, List.filterMap_append, filterMap_asNode?_map_token]
    exact List.append_nil _
  · change (Rule.fileBody limits limits.maxDepth (State.start source)).state.errors = _
    rw [hbody]
    rfl

/-- In a text that starts with the tokens of a clean one, the items of that are parsed without an
error, and then what is left. -/
theorem Rule.contents_clean {source : String} {limits : Limits} {xs : List (Sketch Token)}
    {rest : List Token} (hready : Ready limits (State.start source))
    (H : CleanItems limits.maxDepth xs)
    (hleaves : significant (TokenStream.ofChars source.toList).body = Sketch.leavesAll xs ++ rest)
    (hrest : Ends (rest.map Token.kind)) :
    ∃ es t budget, Run (State.start source) es t ∧ sketches es = xs ∧ t.raised = [] ∧
      significant t.rest = rest ∧
      limits.maxIterations ≤ (Sketch.leavesAll xs).length + budget ∧
      contents limits limits.maxDepth limits.maxIterations (State.start source) =
        ⟨(), es ++ (contents limits limits.maxDepth budget t).emitted,
          (contents limits limits.maxDepth budget t).state⟩ := by
  have hstart : significant (State.start source).rest = Sketch.leavesAll xs ++ rest :=
    (significant_start source).trans hleaves
  have hlen : (Sketch.leavesAll xs).length ≤ limits.maxIterations := by
    have hle := hready.length_le
    rw [State.kinds, kindsOf_eq_map_significant, hstart, List.length_map, List.length_append] at hle
    exact Nat.le_of_add_right_le hle
  obtain ⟨es, t, errors, budget, hrun, ht, hbudget, hcut, hraised, heq⟩ :=
    Parses.items_front (Script.sound_of_false limits (tokenize source)) H.regular H.production hrest
      (reading_start hready) hstart hlen
  obtain ⟨hsketches, rfl⟩ := H.eq_of_cut hcut
  refine ⟨es, t, budget, hrun, hsketches, hraised, ht, hbudget, ?_⟩
  simp only [contents, bind_apply, heq, List.append_assoc]

/-- Where a text starts as a clean one does, that is parsed as it is alone, and then come the contents
of the file from there. -/
theorem Rule.contents_shared {a c : String} {limits : Limits} {xs : List (Sketch Token)}
    {front us vs : List Token} (ha : Ready limits (State.start a))
    (hc : Ready limits (State.start c)) (H : CleanItems limits.maxDepth xs)
    (hfirst : (TokenStream.ofChars a.toList).body = front ++ us)
    (hus : ∀ t ∈ us, t.isTrivia = true)
    (hbody : (TokenStream.ofChars c.toList).body = front ++ vs)
    (hfront : significant front = Sketch.leavesAll xs)
    (hends : Ends ((significant vs).map Token.kind)) :
    ∃ es s t budget, Run (State.start c) es t ∧ sketches es = xs ∧ t.raised = [] ∧
      significant t.rest = significant vs ∧
      limits.maxIterations ≤ (Sketch.leavesAll xs).length + budget ∧
      contents limits limits.maxDepth limits.maxIterations (State.start a) = ⟨(), es, s⟩ ∧
      contents limits limits.maxDepth limits.maxIterations (State.start c) =
        ⟨(), es ++ (contents limits limits.maxDepth budget t).emitted,
          (contents limits limits.maxDepth budget t).state⟩ := by
  have hleaves : significant (TokenStream.ofChars a.toList).body = Sketch.leavesAll xs ++ [] := by
    rw [hfirst, significant_append, hfront, significant_eq_nil hus]
  have hleaves' : significant (TokenStream.ofChars c.toList).body =
      Sketch.leavesAll xs ++ significant vs := by
    rw [hbody, significant_append, hfront]
  obtain ⟨es, s, _, hrun, hes, -, hs, -, halone⟩ :=
    contents_clean ha H hleaves (by simp [Ends])
  obtain ⟨es', t, budget, hrun', hes', hraised, ht, hbudget, hcontents⟩ :=
    contents_clean hc H hleaves' hends
  have hfilled : Sketch.Filled (sketches es) := hes ▸ H.filled
  obtain rfl := hrun.eq_of_sketches hrun' hfilled (hes'.trans hes.symm) hfirst hbody (hes ▸ hfront)
  have hend : s.atEof = true := by
    rw [(hrun.wf (State.wf_start a)).atEof_iff, State.kinds, kindsOf_eq_map_significant, hs]
    rfl
  rw [contents_of_atEof _ hend, List.append_nil] at halone
  exact ⟨es', s, t, budget, hrun', hes', hraised, ht, hbudget, halone, hcontents⟩

/-- A clean text is parsed in front of another one as it is alone, and then come the contents of the
file from there, behind it. -/
theorem Rule.contents_front {a b c : String} {limits : Limits} {d : Shift}
    {xs : List (Sketch Token)}
    (J : TokenStream.Joint d (.ofChars a.toList) (.ofChars b.toList) (.ofChars c.toList))
    (ha : Ready limits (State.start a)) (hc : Ready limits (State.start c))
    (H : CleanItems limits.maxDepth xs)
    (hleaves : significant (TokenStream.ofChars a.toList).body = Sketch.leavesAll xs)
    (hends : Ends (State.start b).kinds) :
    ∃ es s t budget n us p,
      t = (({ d with nodes := n } : Shift).state (State.start b)).behind us p ∧
      limits.maxIterations ≤ (Sketch.leavesAll xs).length + budget ∧
      contents limits limits.maxDepth limits.maxIterations (State.start a) = ⟨(), es, s⟩ ∧
      contents limits limits.maxDepth limits.maxIterations (State.start c) =
        ⟨(), es ++ (contents limits limits.maxDepth budget t).emitted,
          (contents limits limits.maxDepth budget t).state⟩ := by
  have hfront := J.significant_front.trans hleaves
  rw [State.kinds_start, ← J.kindsOf_rest, ← d.kindsOf_map_token, kindsOf_eq_map_significant]
    at hends
  obtain ⟨es, s, t, budget, hrun, hes, hraised, -, hbudget, halone, hcontents⟩ :=
    contents_shared ha hc H J.body_first J.isTrivia_gap J.body_eq hfront (by
      rwa [significant_append, significant_eq_nil J.isTrivia_gap'])
  have hfilled : Sketch.Filled (sketches es) := hes ▸ H.filled
  obtain ⟨n, us, p, ht⟩ := hrun.exists_behind J.body_second J.isTrivia_lead J.isTrivia_head
    J.body_eq J.eof_eq J.isTrivia_gap' hfilled (hes ▸ hfront)
  rw [← hraised] at ht
  exact ⟨es, s, t, budget, n, us, p, ht, hbudget, halone, hcontents⟩

/-- A text without errors and a text that starts with the name of a module or a variable, one after
the other: the file has the items of the first, as they are, and what the second one has, with its
errors, shifted by the first text and the newline. -/
theorem parse_joined (a b : String) (limits : Limits) (hclean : (parse a limits).errors = [])
    (hcomment : ∀ t ∈ (tokenize a).dropLast.getLast?, ¬Lexeme.OpenComment t.chars)
    (hname : ∃ t ∈ (significant (tokenize b)).head?,
      t.kind ∈ [TokenKind.blueprintTypeName, .variableName])
    (hlen : (tokenize (a ++ "\n" ++ b)).length ≤ limits.maxIterations) :
    ∃ d : Shift, d.offset = a.utf8ByteSize + 1 ∧ d.line = a.toList.count '\n' + 1 ∧
      (parse (a ++ "\n" ++ b) limits).tree.root.kind = .file ∧
      (parse (a ++ "\n" ++ b) limits).tree.cursor.childNodes.map Cursor.node =
        (parse a limits).tree.cursor.childNodes.map Cursor.node ++
          ((parse b limits).tree.cursor.childNodes.map Cursor.node).map d.node ∧
      (parse (a ++ "\n" ++ b) limits).errors = (parse b limits).errors.map d.error := by
  have hready := ready_start (Nat.le_trans (length_tokenize_le a b) hlen)
  obtain ⟨xs, H, hleaves, -⟩ := parse_cleanItems hready hclean
  have hbody : (tokenize a).dropLast = (TokenStream.ofChars a.toList).body := List.dropLast_concat
  obtain ⟨k, hk, hname⟩ := exists_head_kindsOf (by simp) hname
  obtain ⟨d, hoffset, hline, ⟨J⟩⟩ :=
    tokenize_joined (H.closed hleaves (hbody ▸ hcomment)) ⟨k, hk, hname⟩
  rw [← State.kinds_start] at hk
  have hcurrent : (State.start b).current = k := by
    rw [(State.wf_start b).current_eq_headD, List.headD_eq_head?_getD, hk]
    rfl
  have hends : Ends (State.start b).kinds := by
    rw [Ends, hk]
    rintro ⟨⟩
    simp at hname
  obtain ⟨es, s, t, budget, n, us, p, rfl, hbudget, ha, hab⟩ :=
    Rule.contents_front J hready (ready_start hlen) H hleaves hends
  -- there is a round for each token of the second text, and one more
  have hcount : (Sketch.leavesAll xs).length + (State.start b).kinds.length <
      limits.maxIterations := by
    refine Nat.lt_of_lt_of_le ?_ hlen
    have hlt := State.length_kinds_start_lt (a ++ "\n" ++ b)
    rwa [State.kinds_start, kindsOf_eq_map_significant, J.significant_body, hleaves,
      List.map_append, List.length_append, List.length_map, ← kindsOf_eq_map_significant,
      Shift.kindsOf_map_token, J.kindsOf_rest, ← State.kinds_start] at hlt
  have hlimit : (State.start b).kinds.length < limits.maxIterations := by omega
  have hlimit' : (State.start b).kinds.length < budget := by omega
  obtain ⟨fs, u, hb, hbehind⟩ := Rule.contents_behind (State.wf_start b) (hcurrent ▸ hname)
    hlimit hlimit hlimit' limits.maxDepth us p
  rw [hbehind] at hab
  obtain ⟨hnodes, -⟩ := parse_of_contents ha
  obtain ⟨hnodes', herrors'⟩ := parse_of_contents hb
  obtain ⟨hnodes'', herrors''⟩ := parse_of_contents hab
  refine ⟨{ d with nodes := n }, hoffset, hline, rfl, ?_, ?_⟩
  · simp only [hnodes, hnodes', hnodes'', List.filterMap_append, filterMap_asNode?_map_token,
      Shift.filterMap_asNode?_elements, List.nil_append]
  · rw [herrors', herrors'', List.map_reverse, ← Shift.recorded_map_error]
    rfl

/-- A module that is not closed, behind a variable and a comment. -/
theorem parse_joined_unclosed :
    (parse "v = [1] /* one */" ⟨2, 30⟩).errors = [] ∧
      ∃ d : Shift, d.offset = "v = [1] /* one */".utf8ByteSize + 1 ∧
        d.line = "v = [1] /* one */".toList.count '\n' + 1 ∧
        (parse ("v = [1] /* one */" ++ "\n" ++ "m \x7b a: + ]") ⟨2, 30⟩).tree.root.kind = .file ∧
        (parse ("v = [1] /* one */" ++ "\n" ++ "m \x7b a: + ]")
            ⟨2, 30⟩).tree.cursor.childNodes.map Cursor.node =
          (parse "v = [1] /* one */" ⟨2, 30⟩).tree.cursor.childNodes.map Cursor.node ++
            ((parse "m \x7b a: + ]" ⟨2, 30⟩).tree.cursor.childNodes.map Cursor.node).map d.node ∧
        (parse ("v = [1] /* one */" ++ "\n" ++ "m \x7b a: + ]") ⟨2, 30⟩).errors =
          (parse "m \x7b a: + ]" ⟨2, 30⟩).errors.map d.error :=
  have hclean : (parse "v = [1] /* one */" ⟨2, 30⟩).errors = [] := by decide +kernel
  ⟨hclean, parse_joined "v = [1] /* one */" "m \x7b a: + ]" ⟨2, 30⟩ hclean (by decide +kernel)
    ⟨(tokenize "m \x7b a: + ]").head (by decide +kernel), by decide +kernel, by decide +kernel⟩
    (by decide +kernel)⟩

end Blueprint
