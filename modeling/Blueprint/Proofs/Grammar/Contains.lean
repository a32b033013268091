import Blueprint.Proofs.Grammar.Parses.Elements
import Blueprint.Proofs.Grammar.Recovers
import Blueprint.Proofs.Tree.Hole

/-!
# Torn arrays stay by themselves

In a text without errors the contents of an array are replaced by elements and junk that does not go
on with them. Then there is one error, about the first token of the junk, the array holds the elements
and one error node, and all around it the tree is what it was (`parse_torn_array`).
-/

namespace Blueprint

open NodeKind Form Token Sketch

/-- An array: what it holds between its brackets. -/
def Sketch.bracketed {α : Type} (opening : α) (contents : List (Sketch α)) (closing : α) : Sketch α :=
  .node .array (.leaf opening :: (contents ++ [.leaf closing]))

namespace Sketch

variable {α β : Type} {a b : α} {xs : List (Sketch α)}

theorem leaves_bracketed : (bracketed a xs b).leaves = a :: (leavesAll xs ++ [b]) := by
  rw [bracketed, leaves, leavesAll, leavesAll_append]
  rfl

theorem map_bracketed (f : α → β) :
    (bracketed a xs b).map f = bracketed (f a) (mapAll f xs) (f b) := by
  rw [bracketed, Sketch.map, mapAll, mapAll_append]
  rfl

theorem strip_bracketed {trivia : α → Bool} (ha : trivia a = false) (hb : trivia b = false) :
    (bracketed a xs b).strip trivia = [bracketed a (stripAll trivia xs) b] := by
  rw [bracketed, strip, stripAll, stripAll_append]
  simp only [stripAll, strip, ha, hb, Bool.false_eq_true, if_false, List.append_nil]
  rfl

theorem tight_bracketed {trivia : α → Bool} (ha : trivia a = false) (hb : trivia b = false)
    (H : Tight trivia xs) : Tight trivia [bracketed a xs b] := by
  refine .node ⟨a, rfl, ha⟩ ⟨b, ?_, hb⟩ (.leaf (H.append (.leaf .nil))) .nil
  rw [leavesAll, leavesAll_append, ← List.append_assoc]
  exact List.getLast?_concat

end Sketch

/-- In a tight node leaves that come first and last without trivia do so with it. -/
theorem Sketch.exists_enclosed {α : Type} {trivia : α → Bool} {k : NodeKind} {a b : α}
    {cs ms : List (Sketch α)} (H : Tight trivia [.node k cs])
    (h : stripAll trivia cs = .leaf a :: (ms ++ [.leaf b])) :
    ∃ xs, cs = .leaf a :: (xs ++ [.leaf b]) := by
  cases H with | node hfirst hlast _ _ =>
  cases cs with
  | nil => cases h
  | cons x xs =>
    cases x with
    | node k ds => cases (List.cons.inj h).1
    | leaf a' =>
      obtain ⟨_, hmem, ha⟩ := hfirst
      cases hmem
      rw [stripAll, strip, ha, if_neg Bool.false_ne_true] at h
      obtain ⟨hleaf, hrest⟩ := List.cons.inj h
      cases hleaf
      have hrest : stripAll trivia xs = ms ++ [.leaf b] := hrest
      rcases List.eq_nil_or_concat' xs with rfl | ⟨ys, y, rfl⟩
      · exact absurd hrest.symm (List.append_ne_nil_of_right_ne_nil _ (List.cons_ne_nil _ _))
      refine ⟨ys, ?_⟩
      rw [stripAll_append, stripAll, stripAll, List.append_nil] at hrest
      cases y with
      | node k ds => cases (List.append_inj' hrest rfl).2
      | leaf b' =>
        obtain ⟨_, hmem, hb⟩ := hlast
        rw [leavesAll, leavesAll_append, ← List.append_assoc] at hmem
        cases List.getLast?_concat.symm.trans hmem
        rw [strip, hb, if_neg Bool.false_ne_true] at hrest
        cases (List.append_inj' hrest rfl).2
        rfl

/-- The brackets of a regular array enclose balanced ones. -/
theorem Regular.balanced_bracketed {α : Type} {kind : α → TokenKind} {a b : α}
    {xs : List (Sketch α)} (H : Regular kind (fun _ => False) [bracketed a xs b]) :
    Balanced ((leavesAll xs).map kind) := by
  obtain ⟨opening, -, closing, ks, -, hks, h⟩ := H.exists_brackets nofun (.inl rfl)
  rw [map_leavesAll_enclosed] at h
  obtain ⟨-, h⟩ := List.cons.inj h
  rwa [(List.append_inj' h rfl).1]

/-- In the place of an array another one can stand. -/
theorem Regular.bracketed {α : Type} {kind : α → TokenKind} {bad : Sketch α → Prop} {a b : α}
    {is : List (Sketch α)} (ha : kind a = .arrayStart) (hb : kind b = .arrayEnd)
    (H : Regular kind bad [.node .elements is]) :
    Regular kind bad [bracketed a [.node .elements is] b] := by
  refine .node ?_ (.leaf (H.append (.leaf .nil))) .nil
  rw [symbols_cons, symbols_append, symbol, ha, symbols_cons, symbols_cons, symbol, symbol, hb]
  exact ⟨_, ⟨_, rfl, _, mem_optional.2 (.inr rfl), rfl⟩, _, rfl, rfl⟩

/-- Bad contents of an array lie within the depth limit where others do. -/
theorem Within.bracketed {α : Type} {kind : α → TokenKind} {depth : Nat} {bad : Sketch α → Prop}
    {above : List NodeKind} {a b : α} {xs is : List (Sketch α)} (hbad : bad (.node .elements is))
    (H : Within kind depth (fun _ => False) above [bracketed a xs b] 0) :
    Within kind depth bad above [bracketed a [.node .elements is] b] 1 := by
  have hreach := H.of_node.1
  rw [reach_of_ne (by decide)] at hreach
  refine .node (n := 0) ?_ (.inl (by decide)) (.leaf (.bad (by decide) hreach hbad (.leaf .nil))) .nil
  rwa [reach_of_ne (by decide)]

/-- Only the last token of a text is of the kind for its end. -/
theorem Token.kind_ne_eof_of_append {source : String} {ts us : List Token}
    (h : tokenize source = ts ++ us) (hus : us ≠ []) : ∀ t ∈ ts, t.kind ≠ .eof := by
  obtain ⟨us, u, rfl⟩ := (List.eq_nil_or_concat' us).resolve_left hus
  rw [tokenize, TokenStream.toList, ← List.append_assoc] at h
  have hbody := (List.append_inj' h rfl).1
  exact fun t ht => TokenStream.kind_ne_eof_of_mem_place _ _ _ _
    (hbody ▸ List.mem_append_left us ht : t ∈ (TokenStream.ofChars source.toList).body)

/-- Every word is one of a token. -/
theorem Token.exists_map_word (ws : List Word) : ∃ ts : List Token, ts.map word = ws :=
  List.map_surjective_iff.2 (fun w => ⟨⟨0, w.kind, ⟨0, 0, 0, 0⟩, w.chars⟩, rfl⟩) ws

/-! ### Parsing -/

/-- With torn contents in an array of a tree the text has that tree, and an error about the first
token of the junk. -/
theorem parse_filled {source : String} {limits : Limits} {Q : Hole Token} {a b t : Token}
    {cs : List (Sketch Token)} {list run : List Token}
    (hready : Ready limits (State.start source)) (hbreaks : Breaks list run t)
    (heof : t.kind ≠ .eof) (ha : a.kind = .arrayStart) (hb : b.kind = .arrayEnd)
    (H : CleanTree Token.kind limits.maxDepth (Q.fill (bracketed a cs b)))
    (htokens : significant (tokenize source) =
      Q.before ++ a :: (significant list ++ significant run ++ b :: Q.after)) :
    .node .file (Element.sketches (parse source limits).tree.root.children) =
        Q.fill (bracketed a
          [.node .elements (torn Token.kind (significant list) (significant run))] b) ∧
      ∃ e, (parse source limits).errors = [e] ∧ e.span = t.span := by
  obtain ⟨ts, hts⟩ := List.head?_eq_some_iff.1 hbreaks.head
  obtain ⟨is, his⟩ : ∃ is, is = torn Token.kind (significant list) (significant run) := ⟨_, rfl⟩
  have hS : (⟨limits, tokenize source, (· = .node .elements is)⟩ : Script).Sound :=
    Script.sound_of_breaks hbreaks heof (his ▸ rfl)
  have hbad : ∀ k xs, Sketch.node k xs = .node .elements is →
      symbols Token.kind xs ∉ k.whole.matches' := by
    rintro _ _ ⟨⟩
    rw [his, hts]
    exact symbols_torn_notMem _ _ _ _
  have hsymbol : symbol Token.kind (bracketed a cs b) =
      symbol Token.kind (bracketed a [.node .elements is] b) := rfl
  obtain ⟨htree, errors, hcount, hconcerns, herrors⟩ := parse_within hS hready
    (H.regular.fill hsymbol (.bracketed ha hb (.bad (by decide) rfl .nil)))
    (H.within.fill H.regular hsymbol hbad fun _ hx => hx.bracketed rfl)
    ((Q.symbol_fill hsymbol).symm.trans H.symbol_eq)
    (by
      rw [Hole.leaves_fill, leaves_bracketed, leavesAll_node, his, leavesAll_torn, htokens]
      simp only [List.append_assoc, List.cons_append, List.nil_append])
  obtain ⟨e, rfl⟩ := List.length_eq_one_iff.1 hcount
  obtain ⟨_, rfl, he⟩ := hconcerns e (.head _)
  refine ⟨his ▸ htree, e, herrors, he t ?_⟩
  rw [his, hts]
  exact skipped?_torn _ _ _ _

section

variable {source source' : String} {limits : Limits} {H : Hole Word} {contents : List (Sketch Word)}
  {front list run back : List Token} {t : Token}
  (hclean : (parse source limits).errors = [])
  (hplain : (parse source limits).tree.plain = H.fill (bracketed .openSquare contents .closeSquare))
  (htokens : tokenize source' = front ++ (list ++ (run ++ back)))
  (hfront : (words front).map Word.chars = (H.before ++ [Word.openSquare]).map Word.chars)
  (hback : (words back).map Word.chars = (Word.closeSquare :: H.after).map Word.chars)
  (hbreaks : Breaks list run t)
include hclean hplain htokens hfront hback hbreaks

/-- The words on both sides of the contents are those of the text without errors. -/
theorem words_of_clean_hole :
    words front = H.before ++ [.openSquare] ∧ words back = .closeSquare :: H.after := by
  have hregular := (plain_of_clean hclean).regular
  rw [hplain] at hregular
  obtain ⟨wanted, hlist, -⟩ := hbreaks.listing
  have hbalanced := hlist.balanced.append hbreaks.balanced
  rw [kindsOf_eq_map_words, kindsOf_eq_map_words, ← List.map_append] at hbalanced
  have hwords : words (tokenize source) =
      H.before ++ .openSquare :: (leavesAll contents ++ .closeSquare :: H.after) := by
    rw [← leaves_plain source limits, hplain, Hole.leaves_fill, leaves_bracketed]
    simp only [List.append_assoc, List.cons_append, List.nil_append]
  have hwords' :
      words (tokenize source') = words front ++ ((words list ++ words run) ++ words back) := by
    simp only [htokens, words_append, List.append_assoc]
  exact words_enclosed hfront hregular.of_fill.balanced_bracketed hbalanced hback hwords hwords'

variable (hlen : (tokenize source').length ≤ limits.maxIterations)
include hlen

theorem parse_torn :
    (parse source' limits).tree.plain = H.fill (bracketed .openSquare
        [.node .elements (torn Word.kind (words list) (words run))] .closeSquare) ∧
      ∃ e, (parse source' limits).errors = [e] ∧ e.span = t.span := by
  have hwhole := plain_of_clean hclean
  rw [hplain] at hwhole
  obtain ⟨hwordsFront, hwordsBack⟩ :=
    words_of_clean_hole hclean hplain htokens hfront hback hbreaks
  -- the same hole between the tokens of the second text
  obtain ⟨us, os, hus, hbefore, hos⟩ := List.map_eq_append_iff.1 hwordsFront
  obtain ⟨o, rfl, ho⟩ := List.map_eq_singleton_iff.1 hos
  obtain ⟨c, vs, hvs, hc, hafter⟩ := List.map_eq_cons_iff.1 hwordsBack
  obtain ⟨Q, rfl, rfl, rfl⟩ := Hole.exists_map hbefore.symm hafter.symm
  obtain ⟨ws, hws⟩ := Token.exists_map_word (leavesAll contents)
  obtain ⟨cs, rfl, -⟩ := exists_mapAll hws.symm
  have hmap (xs : List (Sketch Token)) :
      (Q.map word).fill (bracketed .openSquare (mapAll word xs) .closeSquare) =
        (Q.fill (bracketed o xs c)).map word := by
    rw [Hole.map_fill, map_bracketed, ho, hc]
  rw [hmap] at hwhole
  have heof : t.kind ≠ .eof := by
    have hrun : t ∈ run := (List.mem_filter.1 (List.mem_of_head? hbreaks.head)).1
    have hne : back ≠ [] := by
      rintro rfl
      cases hvs
    rw [← List.append_assoc, ← List.append_assoc] at htokens
    exact Token.kind_ne_eof_of_append htokens hne t (List.mem_append_right _ hrun)
  have hsignificant : significant (tokenize source') =
      Q.before ++ o :: (significant list ++ significant run ++ c :: Q.after) := by
    rw [htokens, significant_append, significant_append, significant_append, hus, hvs]
    simp only [List.append_assoc, List.cons_append, List.nil_append]
  obtain ⟨htree, herrors⟩ := parse_filled (ready_start hlen) hbreaks heof (congrArg Word.kind ho)
    (congrArg Word.kind hc) hwhole.of_map_word hsignificant
  refine ⟨?_, herrors⟩
  have htorn : [.node .elements (torn Word.kind (words list) (words run))] =
      mapAll word [.node .elements (torn Token.kind (significant list) (significant run))] := by
    rw [words, words, ← mapAll_torn]
    rfl
  rw [htorn, hmap, ← htree]
  rfl

end

/-! ### With trivia -/

/-- Without trivia a tree with a hole in it is one without trivia that has the hole. -/
theorem Tree.plain_of_texts {tree : Tree} {hole : Hole Word} {x y : Sketch Word}
    (h : tree.texts = hole.fill x) (hx : x.strip Word.isTrivia = [y]) :
    tree.plain = (hole.strip Word.isTrivia).fill y := by
  have hstrip := tree.strip_texts
  rw [h, hole.strip_fill hx] at hstrip
  exact (List.cons.inj hstrip).1.symm

/-- In a text without errors an array has its brackets. -/
theorem exists_bracketed {source : String} {limits : Limits} {hole : Hole Word}
    {cs : List (Sketch Word)} (hclean : (parse source limits).errors = [])
    (hhole : (parse source limits).tree.texts = hole.fill (.node .array cs)) :
    ∃ contents, Sketch.node .array cs = bracketed .openSquare contents .closeSquare := by
  have hregular := (plain_of_clean hclean).regular
  obtain ⟨xs, hxs, Hxs⟩ := tight_texts (plain_of_clean hclean).filled
  rw [hhole] at hxs
  have htight := hole.tight_of_fill_file hxs nofun Hxs
  rw [Tree.plain_of_texts hhole rfl] at hregular
  obtain ⟨a, ms, b, hcs, ha, hb, -⟩ := hregular.of_fill.array
  obtain ⟨contents, rfl⟩ := exists_enclosed htight hcs
  have hmem : ∀ w ∈ (bracketed a contents b).leaves, ∃ u ∈ tokenize source, u.word = w := by
    intro w hw
    refine List.mem_map.1 ?_
    rw [← leaves_texts source limits, hhole, Hole.leaves_fill]
    exact List.mem_append_left _ (List.mem_append_right _ hw)
  rw [leaves_bracketed] at hmem
  obtain ⟨u, hu, rfl⟩ := hmem a (.head _)
  obtain ⟨v, hv, rfl⟩ := hmem b (.tail _ (List.mem_append_right _ (.head _)))
  rw [(Token.word_of_square hu).1 ha, (Token.word_of_square hv).2 hb]
  exact ⟨contents, rfl⟩

theorem Hole.leaves_fill_bracketed (hole : Hole Word) (xs : List (Sketch Word)) :
    (hole.fill (bracketed .openSquare xs .closeSquare)).leaves =
      (hole.before ++ [.openSquare]) ++ (leavesAll xs ++ .closeSquare :: hole.after) := by
  rw [leaves_fill, leaves_bracketed]
  simp only [List.append_assoc, List.cons_append, List.nil_append]

/-- Around an array the tree of another text is known by the words of that text and by the tree
without trivia. -/
theorem texts_of_plain {source source' : String} {limits : Limits} {hole : Hole Word}
    {contents inside : List (Sketch Word)} (hclean : (parse source limits).errors = [])
    (hhole : (parse source limits).tree.texts =
      hole.fill (bracketed .openSquare contents .closeSquare))
    (hfilled : Filled [(parse source' limits).tree.plain]) (htight : Tight Word.isTrivia inside)
    (hwords : (tokenize source').map word =
      (hole.fill (bracketed .openSquare inside .closeSquare)).leaves)
    (hplain : (parse source' limits).tree.plain = (hole.strip Word.isTrivia).fill
      (bracketed .openSquare (stripAll Word.isTrivia inside) .closeSquare)) :
    (parse source' limits).tree.texts = hole.fill (bracketed .openSquare inside .closeSquare) := by
  obtain ⟨xs, hxs, Hxs⟩ := tight_texts (plain_of_clean hclean).filled
  obtain ⟨ys, hys, Hys⟩ := tight_texts hfilled
  rw [hhole] at hxs
  rw [hys]
  refine Hole.eq_fill hxs nofun Hxs Hys (fun _ => tight_bracketed rfl rfl htight) rfl ?_ ?_ ?_
  · rw [leaves_bracketed, leaves_bracketed, ← List.cons_append, ← List.cons_append,
      List.getLast?_concat, List.getLast?_concat]
  · rw [← hys, leaves_texts, hwords]
  · rw [← hys, Tree.strip_texts, hole.strip_fill (strip_bracketed rfl rfl), hplain]

/-- In a text without errors the contents of an array are replaced by elements with commas between
them and a run of tokens that does not go on with these. Then there is one error, at the first token
of the run, the array holds the elements and an error node over the run, and all around it the tree is
what it was. -/
theorem parse_torn_array (source source' : String) (limits : Limits) (hole : Hole Word)
    (cs : List (Sketch Word)) (front list run back : List Token) (t : Token)
    (hclean : (parse source limits).errors = [])
    (hhole : (parse source limits).tree.texts = hole.fill (.node .array cs))
    (htokens : tokenize source' = front ++ (list ++ (run ++ back)))
    (hfront : front.map Token.chars = (hole.before ++ [Word.openSquare]).map Word.chars)
    (hback : back.map Token.chars = (Word.closeSquare :: hole.after).map Word.chars)
    (hbreaks : Breaks list run t) (hlen : (tokenize source').length ≤ limits.maxIterations) :
    (∃ e, (parse source' limits).errors = [e] ∧ e.span = t.span) ∧
      ∃ inside, (parse source' limits).tree.texts =
          hole.fill (bracketed .openSquare inside .closeSquare) ∧
        leavesAll inside = (list ++ run).map word ∧
        stripAll Word.isTrivia inside =
          [.node .elements (torn Word.kind (words list) (words run))] := by
  obtain ⟨contents, hcs⟩ := exists_bracketed hclean hhole
  rw [hcs] at hhole
  have hplain := Tree.plain_of_texts hhole (strip_bracketed rfl rfl)
  have hsides : (tokenize source).map word = (hole.before ++ [.openSquare]) ++
      (leavesAll contents ++ .closeSquare :: hole.after) := by
    rw [← leaves_texts source limits, hhole, Hole.leaves_fill_bracketed]
  have hjoined : tokenize source' = front ++ ((list ++ run) ++ back) := by
    rw [htokens, List.append_assoc]
  have hbefore : (hole.before ++ [Word.openSquare]).filter (!·.isTrivia) =
      (hole.strip Word.isTrivia).before ++ [.openSquare] := by
    rw [List.filter_append, Hole.before_strip]
    rfl
  have hafter : (Word.closeSquare :: hole.after).filter (!·.isTrivia) =
      .closeSquare :: (hole.strip Word.isTrivia).after := by
    rw [Hole.after_strip]
    rfl
  obtain ⟨⟨hchars, hfull⟩, hchars', hfull'⟩ :=
    words_of_sides hsides hbefore hafter hjoined hfront hback
  obtain ⟨hsame, hsame'⟩ := words_of_clean_hole hclean hplain htokens hchars hchars' hbreaks
  obtain ⟨hplain', herrors⟩ := parse_torn hclean hplain htokens hchars hchars' hbreaks hlen
  refine ⟨herrors, ?_⟩
  -- trivia is put back where it is in the text
  have hfilled : Filled [.node .elements (torn Word.kind (words list) (words run))] := by
    obtain ⟨ts, hts⟩ := List.head?_eq_some_iff.1 hbreaks.head
    rw [words, words, hts]
    exact filled_torn _ _ _ _
  have hfilter : ((list ++ run).map word).filter (!·.isTrivia) =
      leavesAll [.node .elements (torn Word.kind (words list) (words run))] := by
    rw [← words_eq_filter, words_append, leavesAll_node, leavesAll_torn]
  obtain ⟨inside, hinside, hleaves, htight⟩ := exists_tight hfilled hfilter
  refine ⟨inside, ?_, hleaves, hinside⟩
  have hregular := (plain_of_clean hclean).regular
  rw [hplain] at hregular
  have hfilled' : Filled [(parse source' limits).tree.plain] := by
    have hfill : Regular Word.kind
        (· = .node .elements (torn Word.kind (words list) (words run)))
        [(parse source' limits).tree.plain] := by
      rw [hplain']
      exact hregular.fill rfl (.bracketed rfl rfl (.bad (by decide) rfl .nil))
    exact hfill.filled fun _ h => h ▸ hfilled
  refine texts_of_plain hclean hhole hfilled' htight ?_ (hinside.symm ▸ hplain')
  rw [Hole.leaves_fill_bracketed, htokens, hleaves, ← hfull hsame, ← hfull' hsame']
  simp only [List.map_append, List.append_assoc]

/-- The first of the arrays in `x = [1] + [2]` is left out. -/
def Hole.firstArray : Hole Word :=
  let blank : Sketch Word := .leaf ⟨.whitespace, [' ']⟩
  let second : Sketch Word := bracketed .openSquare
    [.node .elements [.node .arrayElement [.leaf ⟨.number, ['2']⟩]]] .closeSquare
  .child .file []
    (.child .variable [.leaf ⟨.variableName, ['x']⟩, blank, .leaf ⟨.equals, ['=']⟩, blank]
      (.child .value []
        (.child .arrayExpr [] .here [blank, .leaf ⟨.plus, ['+']⟩, blank, second]) []) [])
    [.leaf ⟨.eof, []⟩]

/-- A list of two elements with an array behind it, in the first of two arrays. -/
theorem parse_torn_array_first : ∃ inside,
    (parse "x = [1] + [2]" ⟨9, 50⟩).tree.texts = Hole.firstArray.fill
        (.node .array [.leaf .openSquare, .node .elements
          [.node .arrayElement [.leaf ⟨.number, ['1']⟩]], .leaf .closeSquare]) ∧
      (parse "x = [a, b [c]] + [2]" ⟨9, 50⟩).tree.texts =
        Hole.firstArray.fill (bracketed .openSquare inside .closeSquare) ∧
      (parse "x = [a, b [c]] + [2]" ⟨9, 50⟩).errors.map SyntaxError.span = [⟨10, 11, 1, 11⟩] := by
  have hhole : (parse "x = [1] + [2]" ⟨9, 50⟩).tree.texts = Hole.firstArray.fill
      (.node .array [.leaf .openSquare, .node .elements
        [.node .arrayElement [.leaf ⟨.number, ['1']⟩]], .leaf .closeSquare]) := by decide +kernel
  -- the list is the sixth token and those up to the blank, and the run is the three after it
  let tokens := tokenize "x = [a, b [c]] + [2]"
  have hlist : kindsOf ((tokens.drop 5).take 5) = [.variableName, .separator, .variableName] := by
    decide +kernel
  have hrun : kindsOf ((tokens.drop 10).take 3) = [.arrayStart, .variableName, .arrayEnd] := by
    decide +kernel
  have hbreaks : Breaks ((tokens.drop 5).take 5) ((tokens.drop 10).take 3)
      (tokens.get ⟨10, by decide +kernel⟩) := by
    refine ⟨by decide +kernel, ?_, false, ?_, by decide +kernel⟩
    · rw [hrun]
      exact .group rfl (.cons (by decide) .nil) .nil
    · rw [hlist]
      exact .cons (by decide) (.last (by decide))
  obtain ⟨⟨e, herrors, he⟩, inside, htexts, -⟩ := parse_torn_array "x = [1] + [2]"
    "x = [a, b [c]] + [2]" ⟨9, 50⟩ .firstArray _ (tokens.take 5) ((tokens.drop 5).take 5)
    ((tokens.drop 10).take 3) (tokens.drop 13) (tokens.get ⟨10, by decide +kernel⟩)
    (by decide +kernel) hhole (by decide +kernel) (by decide +kernel) (by decide +kernel) hbreaks
    (by decide +kernel)
  refine ⟨inside, hhole, htexts, ?_⟩
  rw [herrors, List.map_singleton, he]
  decide +kernel

end Blueprint
