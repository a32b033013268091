import Blueprint.Proofs.Halving
import Blueprint.Proofs.Grammar.Truncates
import Blueprint.Proofs.Tree.Extent

/-!
# The token at an offset

The tokens of a text cover it one after the other, so halving their list by where they stop finds
the one that an offset is in (`Tree.tokenAt?_eq_some`). What is above the token is over it, up to the
root (`Tree.span_contains`).
-/

namespace Blueprint

open Cursor Element

namespace Element.Tiles

variable {p q : Position} {ts : List Token} {es : List Element} {offset : Nat}

/-- An offset among tokens side by side: behind some of them, in the next one, in front of the
rest. -/
theorem exists_split (H : Tiles p (ts.map .token) q) (hstart : p.offset ≤ offset)
    (hstop : offset < q.offset) :
    ∃ front t back, ts = front ++ t :: back ∧ (∀ u ∈ front, u.span.stop ≤ offset) ∧
      (t.span.start ≤ offset ∧ offset < t.span.stop) ∧
      ∀ u ∈ back, offset < u.span.start ∧ offset < u.span.stop := by
  induction ts generalizing p with
  | nil =>
    cases H
    exact absurd hstop (Nat.not_lt.2 hstart)
  | cons u us ih =>
    cases H with
    | token hu H =>
      have hustart : u.span.start = p.offset := congrArg Span.start hu
      have hustop : u.span.stop = (p.after u.chars).offset :=
        congrArg Span.stop (hu.trans (Span.ofText_eq_between _ _))
      rcases Nat.lt_or_ge offset u.span.stop with hlt | hge
      · refine ⟨[], u, us, rfl, nofun, ⟨hustart ▸ hstart, hlt⟩, fun v hv => ?_⟩
        rw [hustop] at hlt
        exact ⟨hlt.trans_le (H.le_start v hv),
          hlt.trans_le (H.stop_between _ (List.mem_map_of_mem hv)).1⟩
      · obtain ⟨front, t, back, rfl, hfront, ht, hback⟩ := ih H (hustop.symm.le.trans hge)
        exact ⟨u :: front, t, back, rfl, List.forall_mem_cons.2 ⟨hge, hfront⟩, ht, hback⟩

/-- A node is over the tokens below it. -/
theorem contains_of_mem (H : Tiles p es q) {above : List Node} {a : Cursor}
    (ha : a ∈ ofElements above es) {t : Token} (ht : t ∈ a.descendantTokens) :
    a.span.start ≤ t.span.start ∧ t.span.stop ≤ a.span.stop := by
  obtain ⟨p', q', -, -, -, -, hchildren, hspan⟩ := H.exists_place ha
  have htokens : Tiles p' (a.descendantTokens.map .token) q' := hchildren.map_token
  rw [hspan]
  exact ⟨htokens.le_start t ht, (htokens.stop_between _ (List.mem_map_of_mem ht)).2⟩

end Element.Tiles

theorem Span.contains_iff {s : Span} {offset : Nat} :
    s.contains offset = true ↔ s.start ≤ offset ∧ offset < s.stop := by
  rw [contains, Bool.and_eq_true, decide_eq_true_iff, decide_eq_true_iff]

namespace Tree

/-- The token at an offset inside the text is the one whose range has the offset in it, which is
never the one for the end of the file, and there is none outside. The nodes on the way from the owner
of the token up to the root have the offset in their ranges as well. -/
structure FindsTokens (tree : Tree) : Prop where
  inside : ∀ offset < tree.source.utf8ByteSize, ∃ t ∈ tree.tokens,
    tree.tokenAt? offset = some t ∧ t.span.contains offset = true ∧
      ∀ u ∈ tree.tokens, u.span.contains offset = true → u = t
  outside : ∀ offset, tree.source.utf8ByteSize ≤ offset → tree.tokenAt? offset = none
  kind_ne_eof : ∀ offset, ∀ t ∈ tree.tokenAt? offset, t.kind ≠ .eof
  above : ∀ offset, ∀ t ∈ tree.tokenAt? offset, ∃ c ∈ tree.cursors,
    t ∈ c.childTokens ∧ tree.ownerOf? t.index = some c.id ∧
      (c :: c.ancestors).getLast? = some tree.cursor ∧
        ∀ a ∈ c :: c.ancestors, a.span.contains offset = true

variable {tree : Tree} {offset : Nat}

theorem tokenAt?_eq_some {front back : List Token} {t : Token}
    (hts : tree.tokens = front ++ t :: back) (hfront : ∀ u ∈ front, u.span.stop ≤ offset)
    (ht : t.span.start ≤ offset ∧ offset < t.span.stop)
    (hback : ∀ u ∈ back, offset < u.span.stop) : tree.tokenAt? offset = some t := by
  have hpoint : partitionPoint (fun u : Token => decide (u.span.stop ≤ offset))
      (front ++ t :: back) = front.length :=
    partitionPoint_append (fun u hu => decide_eq_true (hfront u hu)) <|
      List.forall_mem_cons.2 ⟨decide_eq_false (Nat.not_le.2 ht.2), fun u hu =>
        decide_eq_false (Nat.not_le.2 (hback u hu))⟩
  rw [tokenAt?, hts, hpoint, List.getElem?_append_right (Nat.le_refl _), Nat.sub_self,
    List.getElem?_cons_zero, Option.filter_some, if_pos (Span.contains_iff.2 ht)]

theorem tokenAt?_eq_none (h : ∀ t ∈ tree.tokens, t.span.stop ≤ offset) :
    tree.tokenAt? offset = none := by
  have hpoint := @partitionPoint_append _ (fun u : Token => decide (u.span.stop ≤ offset))
    tree.tokens [] (fun u hu => decide_eq_true (h u hu)) nofun
  rw [List.append_nil] at hpoint
  rw [tokenAt?, hpoint, List.getElem?_eq_none (Nat.le_refl _), Option.filter_none]

/-- What is above a token is over it. -/
theorem span_contains {q : Position} (H : Tiles .first [tree.root.toElement] q) {c a : Cursor}
    (hc : c ∈ tree.cursors) (ha : a ∈ c :: c.ancestors) {t : Token} (ht : t ∈ c.childTokens) :
    a.span.start ≤ t.span.start ∧ t.span.stop ≤ a.span.stop := by
  rw [cursors_eq_ofElements] at hc
  rcases List.mem_cons.1 ha with rfl | ha
  · exact H.contains_of_mem hc (mem_descendantTokens ht)
  · rcases mem_of_mem_ancestors ha hc with h | ⟨ha, hbelow⟩
    · cases h
    · exact H.contains_of_mem ha ((isInfix_descendantTokens hbelow).mem (mem_descendantTokens ht))

/-- A tree with the tokens of its text side by side finds them. -/
theorem findsTokens_of_tiles {q : Position} (H : Tiles .first [tree.root.toElement] q)
    (hq : q.offset = tree.source.utf8ByteSize)
    (hleaves : tree.root.toElement.leaves = tree.tokens)
    (hindices : (tree.tokens.map Token.index).Nodup)
    (heof : ∀ t ∈ tree.tokens, t.kind = .eof → t.span.start = t.span.stop) : tree.FindsTokens := by
  have Htokens : Tiles .first (tree.tokens.map .token) q := by
    rw [← hleaves, ← List.append_nil tree.root.toElement.leaves]
    exact H.map_token
  have hfound {offset : Nat} {t : Token} (ht : t ∈ tree.tokenAt? offset) :
      t ∈ tree.tokens ∧ t.span.start ≤ offset ∧ offset < t.span.stop := by
    obtain ⟨hmem, hcontains⟩ := Option.filter_eq_some_iff.1 ht
    exact ⟨List.mem_of_getElem? hmem, Span.contains_iff.1 hcontains⟩
  constructor
  case inside =>
    intro offset h
    obtain ⟨front, t, back, hts, hfront, ht, hback⟩ :=
      Htokens.exists_split (Nat.zero_le offset) (hq ▸ h)
    refine ⟨t, hts ▸ List.mem_append_right _ (.head _),
      tokenAt?_eq_some hts hfront ht fun u hu => (hback u hu).2, Span.contains_iff.2 ht, ?_⟩
    intro u hu hcontains
    obtain ⟨hstart, hstop⟩ := Span.contains_iff.1 hcontains
    rw [hts] at hu
    rcases List.mem_append.1 hu with hu | hu
    · exact absurd (hfront u hu) (Nat.not_le.2 hstop)
    · rcases List.mem_cons.1 hu with rfl | hu
      · rfl
      · exact absurd hstart (Nat.not_le.2 (hback u hu).1)
  case outside =>
    intro offset h
    refine tokenAt?_eq_none fun t ht => ?_
    have hstop := (Htokens.stop_between _ (List.mem_map_of_mem ht)).2
    exact (hq ▸ hstop).trans h
  case kind_ne_eof =>
    intro offset t ht hkind
    obtain ⟨hmem, hstart, hstop⟩ := hfound ht
    exact absurd (heof t hmem hkind) (hstart.trans_lt hstop).ne
  case above =>
    intro offset t ht
    obtain ⟨hmem, hstart, hstop⟩ := hfound ht
    obtain ⟨c, hc, htc, howner⟩ := exists_owner hleaves hindices hmem
    refine ⟨c, hc, htc, howner, getLast?_ancestors hc, fun a ha => ?_⟩
    obtain ⟨hle, hle'⟩ := span_contains H hc ha htc
    exact Span.contains_iff.2 ⟨hle.trans hstart, hstop.trans_le hle'⟩

end Tree

/-- Whatever the limits are, the tree of a text finds the token at every offset. -/
theorem parse_tokenAt (source : String) (limits : Limits) :
    (parse source limits).tree.FindsTokens := by
  obtain ⟨es, q, hroot, H, hleaves, -⟩ := exists_root source limits
  refine Tree.findsTokens_of_tiles (q := q) ?_ ?_ (leaves_parse source limits)
    (nodup_index_tokenize source) fun t => start_eq_stop_of_eof
  · rw [hroot]
    exact .node H (.nil q)
  · rw [H.eq_after, hleaves, flatMap_tokenize, Position.after_first]
    exact Text.byteLength_toList source

end Blueprint
