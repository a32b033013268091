import Blueprint.Proofs.Tree.Snug
import Blueprint.Proofs.Tree.Truncate
import Blueprint.Proofs.Token.Partition

/-!
# What the nodes of a tree cover

In a forest whose elements are side by side every node has a place among the tokens: the ones below
it stand in its range (`Tiles.exists_place`), and where there are none it stands in front of the
tokens that follow it in an outline (`Tiles.exists_empty`). With the tokens of a text for leaves the
ranges in a tree are exact (`Tree.exact_of_tiles`).
-/

namespace Blueprint

open Cursor Element Text

/-- The ranges of nodes are those of the tokens below them. A node starts where the first of them
starts and stops where the last one stops, so its part of the text is theirs, and it does not start
with trivia unless it is the root. A node without tokens is empty and in front of the next token.
The children of a node stand side by side from its start to its stop, and the root takes up the
whole text. -/
structure Tree.Exact (tree : Tree) : Prop where
  root : tree.root.span = ⟨0, tree.source.utf8ByteSize, 1, 1⟩
  covers : ∀ c ∈ tree.cursors, ∀ t ∈ c.descendantTokens.head?, ∀ u ∈ c.descendantTokens.getLast?,
    c.span = ⟨t.span.start, u.span.stop, t.span.line, t.span.column⟩
  text : ∀ c ∈ tree.cursors,
    tree.textOf c = String.ofList (c.descendantTokens.flatMap Token.chars)
  significant : ∀ c ∈ tree.cursors, c ≠ tree.cursor →
    ∀ t ∈ c.descendantTokens.head?, t.isTrivia = false
  empty : ∀ (before after : List (Nat × Element)) (depth : Nat) (n : Node),
    tree.root.toElement.outline = before ++ (depth, n.toElement) :: after →
    n.toElement.leaves = [] →
    ∃ t ∈ (after.filterMap (·.2.asToken?)).head?, n.span = Span.startOf t.span
  adjacent : ∀ c ∈ tree.cursors, c.node.children.IsChain fun a b => a.span.stop = b.span.start
  first : ∀ c ∈ tree.cursors, ∀ a ∈ c.node.children.head?, a.span.start = c.span.start
  last : ∀ c ∈ tree.cursors, ∀ b ∈ c.node.children.getLast?, b.span.stop = c.span.stop

namespace Element

/-! ### Outlines -/

theorem preorderAll_append (depth : Nat) (es fs : List Element) :
    preorderAll depth (es ++ fs) = preorderAll depth es ++ preorderAll depth fs := by
  induction es with
  | nil => rfl
  | cons e es ih => rw [List.cons_append, preorderAll, preorderAll, ih, List.append_assoc]

/-- A walk lists what waits on the stack one after the other, each with all that is below it. -/
theorem walk_eq_flatMap (stack : List (Nat × Element)) :
    walk stack = stack.flatMap fun x => x.2.preorder x.1 := by
  have hchildren (depth : Nat) (es : List Element) :
      (es.map (depth, ·)).flatMap (fun x => x.2.preorder x.1) = preorderAll depth es := by
    induction es with
    | nil => rfl
    | cons e es ih => rw [List.map_cons, List.flatMap_cons, preorderAll, ih]
  fun_induction walk stack with
  | case1 => rfl
  | case2 depth e rest ih =>
    rw [ih, List.flatMap_append, hchildren, List.flatMap_cons]
    cases e <;> rfl

theorem outline_eq_preorder (e : Element) : e.outline = e.preorder 0 := by
  rw [outline, walk_eq_flatMap, List.flatMap_singleton]

/-- The tokens of an outline are the leaves. -/
theorem filterMap_preorderAll (depth : Nat) (es : List Element) :
    (preorderAll depth es).filterMap (·.2.asToken?) = leavesAll es := by
  induction es using forest_induction generalizing depth with
  | nil => rfl
  | token t es ih => exact congrArg (t :: ·) (ih depth)
  | node i k s cs es ihc ih =>
    rw [preorderAll, preorder, List.cons_append, List.filterMap_cons_none rfl,
      List.filterMap_append, ihc, ih]
    rfl

/-- When an outline ends with a token, that token is still to come after every node. -/
theorem mem_after_of_getLast {before after : List (Nat × Element)} {n : Node} {depth d : Nat}
    {t : Token} (h : (before ++ (depth, n.toElement) :: after).getLast? = some (d, .token t)) :
    t ∈ after.filterMap (·.2.asToken?) := by
  rw [List.getLast?_append_of_ne_nil before (List.cons_ne_nil _ _)] at h
  rcases List.eq_nil_or_concat' after with rfl | ⟨after', y, rfl⟩
  · cases h
  · rw [← List.cons_append, List.getLast?_concat] at h
    cases h
    exact List.mem_filterMap.2 ⟨(d, .token t), List.mem_append_right _ (.head _), rfl⟩

namespace Tiles

variable {p q : Position} {es : List Element}

/-! ### Places -/

/-- Each element stops where the next one starts. -/
theorem isChain (H : Tiles p es q) : es.IsChain fun a b => a.span.stop = b.span.start := by
  induction H with
  | nil => exact .nil
  | token ht H ih =>
    refine List.isChain_cons.2 ⟨fun b hb => ?_, ih⟩
    obtain ⟨_, hb, -⟩ := H.span_head hb
    rw [hb, Element.span, ht, Span.ofText_eq_between]
    rfl
  | node _ H _ ih =>
    refine List.isChain_cons.2 ⟨fun b hb => ?_, ih⟩
    obtain ⟨_, hb, -⟩ := H.span_head hb
    rw [hb]
    rfl

/-- Where a node stands: after some of the tokens, and over those below it. -/
theorem exists_place (H : Tiles p es q) {above : List Node} {c : Cursor}
    (hc : c ∈ ofElements above es) :
    ∃ p' q' ts us, leavesAll es = ts ++ c.descendantTokens ++ us ∧
      Tiles p (ts.map .token) p' ∧ Tiles p' c.node.children q' ∧ c.span = Span.between p' q' := by
  induction es using forest_induction generalizing p q above with
  | nil => cases hc
  | token t es ih =>
    cases H with
    | token ht H =>
      obtain ⟨p', q', ts, us, hleaves, hts, hchildren, hspan⟩ := ih H hc
      exact ⟨p', q', t :: ts, us, congrArg (t :: ·) hleaves, .token ht hts, hchildren, hspan⟩
  | node i k s cs es ihc ih =>
    cases H with
    | @node _ m _ _ _ _ _ Hc H =>
      rcases List.mem_append.1 hc with hc | hc
      · rcases List.mem_cons.1 hc with rfl | hc
        · exact ⟨p, m, [], leavesAll es, rfl, .nil p, Hc, rfl⟩
        · obtain ⟨p', q', ts, us, hleaves, hts, hchildren, hspan⟩ := ihc Hc hc
          refine ⟨p', q', ts, us ++ leavesAll es, ?_, hts, hchildren, hspan⟩
          rw [leavesAll, leaves, hleaves, List.append_assoc]
      · obtain ⟨p', q', ts, us, hleaves, hts, hchildren, hspan⟩ := ih H hc
        refine ⟨p', q', leavesAll cs ++ ts, us, ?_, ?_, hchildren, hspan⟩
        · rw [leavesAll, leaves, hleaves, List.append_assoc, List.append_assoc, List.append_assoc]
        · rw [List.map_append]
          exact Hc.map_token.append hts

/-- The part of the text in the range of a node is put together from the tokens below it. -/
theorem slice_eq (H : Tiles .first es q) {above : List Node} {c : Cursor}
    (hc : c ∈ ofElements above es) {source : List Char}
    (htext : (leavesAll es).flatMap Token.chars = source) :
    c.span.slice source = c.descendantTokens.flatMap Token.chars := by
  obtain ⟨p', q', ts, us, hleaves, hts, hchildren, hspan⟩ := H.exists_place hc
  have hstart : p'.offset = byteLength (ts.flatMap Token.chars) := by
    rw [hts.eq_after, leavesAll_map_token, Position.after_first]
  have hstop : q'.offset = p'.offset + byteLength (c.descendantTokens.flatMap Token.chars) := by
    rw [hchildren.eq_after, Position.offset_after]
    rfl
  rw [← htext, hleaves, List.flatMap_append, List.flatMap_append, hspan]
  change Text.slice _ p'.offset q'.offset = _
  rw [hstop, hstart, Text.slice_append]

/-- A node without tokens stands in front of the tokens that come after it. -/
theorem exists_empty (H : Tiles p es q) {depth d : Nat} {before after : List (Nat × Element)}
    {n : Node} (hsplit : preorderAll depth es = before ++ (d, n.toElement) :: after)
    (hleaves : n.toElement.leaves = []) :
    ∃ p', n.span = Span.between p' p' ∧
      Tiles p' ((after.filterMap (·.2.asToken?)).map .token) q := by
  induction es using forest_induction generalizing p q depth before after with
  | nil => exact absurd hsplit.symm (List.append_ne_nil_of_right_ne_nil _ (List.cons_ne_nil _ _))
  | token t es ih =>
    cases H with
    | token _ H =>
      cases before with
      | nil => cases hsplit
      | cons x before => exact ih H (List.cons.inj hsplit).2
  | node i k s cs es ihc ih =>
    cases H with
    | @node _ m _ _ _ _ _ Hc H =>
      rw [preorderAll, preorder, List.cons_append] at hsplit
      cases before with
      | nil =>
        rw [List.nil_append, List.cons.injEq, Prod.mk.injEq] at hsplit
        obtain ⟨⟨-, hnode⟩, rfl⟩ := hsplit
        obtain ⟨-, -, hspan, hcs⟩ := Element.node.inj hnode
        have hnil : leavesAll cs = [] := hcs ▸ hleaves
        have hm : m = p := by
          rw [Hc.eq_after, hnil]
          rfl
        subst hm
        refine ⟨m, hspan.symm, ?_⟩
        rw [List.filterMap_append, filterMap_preorderAll, filterMap_preorderAll, hnil]
        exact H.map_token
      | cons x before =>
        rw [List.cons_append, List.cons.injEq] at hsplit
        rcases List.append_eq_append_iff.1 hsplit.2 with ⟨_, -, hes⟩ | ⟨after', hcs, hafter⟩
        · exact ih H hes
        · cases after' with
          | nil =>
            rw [List.nil_append] at hafter
            exact ih H (hafter.symm.trans (List.nil_append _).symm)
          | cons y after' =>
            rw [List.cons_append, List.cons.injEq] at hafter
            obtain ⟨rfl, rfl⟩ := hafter
            obtain ⟨p', hspan, htiles⟩ := ihc Hc hcs
            refine ⟨p', hspan, ?_⟩
            rw [List.filterMap_append, List.map_append, filterMap_preorderAll]
            exact htiles.append H.map_token

/-- A node without tokens is at the start of the next token, if there is one. -/
theorem span_of_empty (H : Tiles p es q) {depth d : Nat} {before after : List (Nat × Element)}
    {n : Node} (hsplit : preorderAll depth es = before ++ (d, n.toElement) :: after)
    (hleaves : n.toElement.leaves = []) (hnext : after.filterMap (·.2.asToken?) ≠ []) :
    ∃ t ∈ (after.filterMap (·.2.asToken?)).head?, n.span = Span.startOf t.span := by
  obtain ⟨p', hspan, htiles⟩ := H.exists_empty hsplit hleaves
  cases htokens : after.filterMap (·.2.asToken?) with
  | nil => exact absurd htokens hnext
  | cons t ts =>
    rw [htokens] at htiles
    cases htiles with
    | token ht _ =>
      refine ⟨t, rfl, ?_⟩
      rw [hspan, ht]
      rfl

end Tiles

end Element

namespace Tree

variable {tree : Tree}

/-- In a tree with the tokens of its text side by side, the last of them directly below the root,
all ranges are exact if no node starts with trivia but the root. -/
theorem exact_of_tiles {q : Position} {es : List Element} {eof : Token}
    (hspan : tree.root.span = Span.between .first q) (H : Tiles .first tree.root.children q)
    (htext : (leavesAll tree.root.children).flatMap Token.chars = tree.source.toList)
    (heof : tree.root.children = es ++ [.token eof])
    (hfirst : ∀ c ∈ ofElements [tree.root] tree.root.children, ∀ t ∈ c.descendantTokens.head?,
      t.isTrivia = false) : tree.Exact := by
  have Hroot : Tiles .first [tree.root.toElement] q := by
    rw [Node.toElement, hspan]
    exact .node H (.nil q)
  have hcursors := cursors_eq_ofElements tree
  have hplace {c : Cursor} (hc : c ∈ tree.cursors) := Hroot.exists_place (hcursors ▸ hc)
  constructor
  case root =>
    rw [hspan, H.eq_after, htext, Position.after_first, Span.between, byteLength_toList]
    rfl
  case covers =>
    intro c hc t ht u hu
    obtain ⟨p', q', -, -, -, -, hchildren, hc⟩ := hplace hc
    have htokens : Tiles p' (c.descendantTokens.map .token) q' := hchildren.map_token
    obtain ⟨_, hspan, -⟩ := htokens.span_head (e := .token t) (by
      rw [List.head?_map, ht]
      rfl)
    obtain ⟨_, hspan', -⟩ := htokens.span_getLast (e := .token u) (by
      rw [List.getLast?_map, hu]
      rfl)
    rw [hc, show t.span = _ from hspan, show u.span = _ from hspan']
    rfl
  case text =>
    intro c hc
    rw [textOf, Hroot.slice_eq (hcursors ▸ hc) ((congrArg _ (List.append_nil _)).trans htext)]
  case significant =>
    intro c hc hne
    rw [cursors_eq_cons] at hc
    exact hfirst c ((List.mem_cons.1 hc).resolve_left hne)
  case empty =>
    intro before after depth n hsplit hleaves
    rw [outline_eq_preorder] at hsplit
    have hsplit' : preorderAll 0 [tree.root.toElement] = before ++ (depth, n.toElement) :: after :=
      (List.append_nil _).trans hsplit
    -- at least the last token of the text comes after the node
    have hlast : (before ++ (depth, n.toElement) :: after).getLast? = some (1, .token eof) := by
      rw [← hsplit, Node.toElement, preorder, heof, preorderAll_append, ← List.cons_append]
      exact List.getLast?_append_of_ne_nil _ (List.cons_ne_nil _ _)
    exact Hroot.span_of_empty hsplit' hleaves (List.ne_nil_of_mem (mem_after_of_getLast hlast))
  case adjacent =>
    intro c hc
    obtain ⟨_, _, -, -, -, -, hchildren, -⟩ := hplace hc
    exact hchildren.isChain
  case first =>
    intro c hc a ha
    obtain ⟨_, _, -, -, -, -, hchildren, hc⟩ := hplace hc
    obtain ⟨_, ha, -⟩ := hchildren.span_head ha
    rw [ha, hc]
    rfl
  case last =>
    intro c hc b hb
    obtain ⟨_, _, -, -, -, -, hchildren, hc⟩ := hplace hc
    obtain ⟨_, hb, -⟩ := hchildren.span_getLast hb
    rw [hb, hc]
    rfl

end Tree

end Blueprint
