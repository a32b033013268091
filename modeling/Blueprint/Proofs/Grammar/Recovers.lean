import Blueprint.Proofs.Grammar.Parses.Entry
import Blueprint.Proofs.Grammar.Truncates
import Blueprint.Proofs.Tree.Slot

/-!
# Damaged entries stay by themselves

A text without errors gets one more entry in one of its bodies, and what stands behind the name of
the entry is junk. Then there is one error, the entry is one pair without a value, and all around it
the tree is what it was (`parse_damaged_entry`).
-/

namespace Blueprint

open NodeKind Form Token Sketch

/-- The words of a text are the leaves of its tree. -/
theorem leaves_plain (source : String) (limits : Limits) :
    (parse source limits).tree.plain.leaves = words (tokenize source) := by
  obtain ⟨es, q, hroot, -, hleaves, -⟩ := exists_root source limits
  rw [Tree.plain, hroot, leaves, Element.plain, leavesAll_mapAll, Element.leavesAll_sketches,
    hleaves, words]

/-- What the tree of a text without errors is: a regular tree of a file, within the depth limit. -/
structure CleanTree {α : Type} (kind : α → TokenKind) (depth : Nat) (tree : Sketch α) : Prop where
  regular : Regular kind (fun _ => False) [tree]
  within : Within kind depth (fun _ => False) [] [tree] 0
  symbol_eq : symbol kind tree = .node .file

theorem CleanItems.cleanTree {depth : Nat} {xs : List (Sketch Token)} {e : Token}
    (H : CleanItems depth xs) (he : e.kind = .eof) :
    CleanTree Token.kind depth (.node .file (xs ++ [.leaf e])) where
  regular := by
    refine .node ⟨_, H.production, _, rfl, ?_⟩ (H.regular.append (.leaf .nil)) .nil
    rw [symbols_append, ← he]
    rfl
  within := .node (n := 0) (Nat.zero_le _) (.inl (by decide)) (H.within.append (.leaf .nil)) .nil
  symbol_eq := rfl

namespace CleanTree

variable {α β : Type} {kind : α → TokenKind} {depth : Nat}

theorem filled {tree : Sketch α} (H : CleanTree kind depth tree) : Filled [tree] :=
  H.regular.filled fun _ h => h.elim

/-- What stands at the leaves does not matter beyond its kind. -/
theorem map_iff {tree : Sketch β} {f : β → α} :
    CleanTree kind depth (tree.map f) ↔ CleanTree (kind ∘ f) depth tree := by
  have hsingle : [tree.map f] = mapAll f [tree] := rfl
  have hsymbol : symbol kind (tree.map f) = symbol (kind ∘ f) tree := by cases tree <;> rfl
  constructor
  · rintro ⟨hregular, hwithin, hroot⟩
    rw [hsingle] at hregular hwithin
    exact ⟨hregular.of_mapAll, Within.mapAll_iff.1 hwithin, hsymbol ▸ hroot⟩
  · rintro ⟨hregular, hwithin, hroot⟩
    rw [← hsymbol] at hroot
    exact ⟨hregular.mapAll, Within.mapAll_iff.2 hwithin, hroot⟩

theorem of_map_word {tree : Sketch Token} (H : CleanTree Word.kind depth (tree.map word)) :
    CleanTree Token.kind depth tree := (map_iff (f := word)).1 H

end CleanTree

/-- The tree of a text without errors is clean, however few rounds the loops may take. -/
theorem plain_of_clean {source : String} {limits : Limits}
    (hclean : (parse source limits).errors = []) :
    CleanTree Word.kind limits.maxDepth (parse source limits).tree.plain := by
  -- the loops may take as many rounds as there are tokens
  let many : Limits := ⟨limits.maxDepth, max limits.maxIterations (tokenize source).length⟩
  have hready : Ready many (State.start source) := ready_start (Nat.le_max_right _ _)
  obtain ⟨hmany, hsame⟩ := parse_moreIterations (Nat.le_max_left _ (tokenize source).length) hclean
  obtain ⟨xs, H, -, hchildren⟩ := parse_cleanItems hready hmany
  have hplain : (parse source limits).tree.plain = (Sketch.node .file
      (xs ++ [.leaf (TokenStream.ofChars source.toList).eof])).map word := by
    rw [← hsame, Tree.plain, Element.plain, hchildren]
    rfl
  have htree : CleanTree Token.kind limits.maxDepth
      (.node .file (xs ++ [.leaf (TokenStream.ofChars source.toList).eof])) := H.cleanTree rfl
  exact hplain ▸ CleanTree.map_iff.2 htree

/-- Where the leaves of a regular tree are the tokens of a text, and it lies within the depth limit,
it is the tree of the text, and an error is raised for each bad node, about it. -/
theorem parse_within {source : String} {limits : Limits} {bad : Sketch Token → Prop} {n : Nat}
    {tree : Sketch Token} (hS : (⟨limits, tokenize source, bad⟩ : Script).Sound)
    (hready : Ready limits (State.start source)) (H : Regular Token.kind bad [tree])
    (hwithin : Within Token.kind limits.maxDepth bad [] [tree] n)
    (hroot : symbol Token.kind tree = .node .file)
    (hleaves : tree.leaves = significant (tokenize source)) :
    .node .file (Element.sketches (parse source limits).tree.root.children) = tree ∧
      ∃ errors : List SyntaxError, errors.length = n ∧
        (∀ e ∈ errors, ∃ x, bad x ∧ e.Concerns x) ∧
        (parse source limits).errors = (SyntaxError.recorded errors.reverse).reverse := by
  cases tree with
  | leaf => cases hroot
  | node k xs =>
    obtain rfl : k = .file := Symbol.node.inj hroot
    obtain ⟨xs, e, rfl, hxs, hword⟩ := H.file
    have heof : significant [(TokenStream.ofChars source.toList).eof] =
        [(TokenStream.ofChars source.toList).eof] := rfl
    rw [leaves, leavesAll_append, tokenize, TokenStream.toList, significant_append, heof] at hleaves
    obtain ⟨hbody, he⟩ := List.append_inj' hleaves rfl
    cases he
    obtain ⟨ys, errors, hcut, hys, herrors⟩ := parse_cut hS hready hxs hword hbody.symm
    have hcut' : ∀ e, Cut limits.maxDepth bad [] [.node .file (xs ++ [.leaf e])]
        [.node .file (ys ++ [.leaf e])] (errors ++ [] ++ []) := fun e =>
      .node (Nat.zero_le _) (.inl (by decide)) (hcut.append (.leaf .nil)) .nil
    rw [List.append_nil, List.append_nil] at hcut'
    obtain ⟨htree, hn⟩ := Cut.eq_of_within hwithin (hcut' _)
    rw [hys, (List.cons.inj htree).1]
    exact ⟨rfl, errors, hn, Cut.exists_concerns hwithin (hcut' _), herrors⟩

/-! ### Entries in a gap -/

/-- The entries that are put into a gap: a damaged one, and commas. -/
abbrev spliced {α : Type} (kind : α → TokenKind) (cs : List α) (name : α) (junk ds : List α) :
    List (Sketch α) :=
  cs.map .leaf ++ .node .pair (damaged kind name junk) :: ds.map .leaf

section

variable {α : Type} {kind : α → TokenKind} {cs : List α} {name : α} {junk ds : List α}

theorem leavesAll_spliced :
    leavesAll (spliced kind cs name junk ds) = cs ++ name :: (junk ++ ds) := by
  rw [leavesAll_append, leavesAll_map_leaf, leavesAll, leaves, leavesAll_damaged,
    leavesAll_map_leaf, List.cons_append]

theorem Regular.spliced : Regular kind (· = .node .pair (damaged kind name junk))
    (spliced kind cs name junk ds) :=
  (Regular.map_leaf _).append (.bad (by decide) rfl (.map_leaf _))

theorem Within.spliced {depth : Nat} {above : List NodeKind} (h : levels above ≤ depth) :
    Within kind depth (· = .node .pair (damaged kind name junk)) above
      (spliced kind cs name junk ds) 1 := by
  have hpair : Within kind depth (· = .node .pair (damaged kind name junk)) above
      (.node .pair (damaged kind name junk) :: ds.map .leaf) 1 :=
    .bad (by decide) h rfl (.map_leaf ds)
  have happend := (Within.map_leaf cs).append hpair
  rwa [Nat.zero_add] at happend

theorem filled_damaged : Filled [.node .pair (damaged kind name junk)] := by
  have hburied : ∀ as : List α, Filled (buried as) := by
    rintro (_ | ⟨a, as⟩)
    · exact .nil
    · exact .node (by rw [leavesAll_map_leaf]; nofun) (.map_leaf _) .nil
  refine .node (by rw [leavesAll_damaged]; nofun) ?_ .nil
  cases junk with
  | nil => exact .node nofun (.leaf .nil) .nil
  | cons a as =>
    by_cases h : kind a = .equals
    · simp only [damaged, h, if_true]
      exact .node nofun (.leaf .nil) (.leaf (hburied as))
    · simp only [damaged, h, if_false]
      exact .node nofun (.leaf .nil) (hburied (a :: as))

theorem filled_spliced : Filled (spliced kind cs name junk ds) :=
  (Filled.map_leaf _).append (filled_damaged.append (.map_leaf _))

end

theorem mapAll_spliced (cs : List Token) (name : Token) (run ds : List Token) :
    mapAll word (spliced Token.kind cs name (significant run) ds) =
      spliced Word.kind (cs.map word) name.word (words run) (ds.map word) := by
  rw [mapAll_append, mapAll_map_leaf, mapAll, mapAll_map_leaf, Sketch.map]
  have hdamaged := mapAll_damaged word Word.kind name (significant run)
  exact congrArg (fun xs => (cs.map word).map .leaf ++ Sketch.node .pair xs :: (ds.map word).map .leaf)
    hdamaged

theorem parse_around {source : String} {limits : Limits} {G : Gap Token} {name : Token}
    {run cs ds : List Token} (hready : Ready limits (State.start source))
    (H : CleanTree Token.kind limits.maxDepth (G.around []))
    (E : (⟨limits, tokenize source, (· = .node .pair (damaged Token.kind name (significant run)))⟩ :
      Script).Entry name run)
    (hentries : symbols Token.kind (G.siblings (spliced Token.kind cs name (significant run) ds)) ∈
      (Form.list (.node .pair)).matches')
    (htokens : significant (tokenize source) =
      G.before ++ (cs ++ name :: (significant run ++ ds)) ++ G.after) :
    .node .file (Element.sketches (parse source limits).tree.root.children) =
        G.around (spliced Token.kind cs name (significant run) ds) ∧
      (parse source limits).errors.length = 1 := by
  have hbad : ∀ k xs, Sketch.node k xs = .node .pair (damaged Token.kind name (significant run)) →
      symbols Token.kind xs ∉ k.whole.matches' := by
    rintro _ _ ⟨⟩
    exact symbols_damaged_notMem _ _ _
  obtain ⟨htree, errors, hlen, -, herrors⟩ := parse_within (E.sound rfl) hready
    (H.regular.around .spliced hentries) (H.within.around hbad (fun _ => .spliced) H.regular)
    ((Gap.symbol_around Token.kind G _ _).trans H.symbol_eq)
    (by rw [Gap.leaves_around, leavesAll_spliced, htokens])
  obtain ⟨e, rfl⟩ := List.length_eq_one_iff.1 hlen
  exact ⟨htree, congrArg List.length herrors⟩

theorem nodup_tokenize (source : String) : (tokenize source).Nodup := by
  refine List.Nodup.of_map Token.index ?_
  rw [tokenize, TokenStream.map_index_toList]
  exact List.nodup_range

section

variable {source source' : String} {limits : Limits} {g : Gap Word} {cs ds : List Word}
  {front run back : List Token} {name : Token}
  (hclean : (parse source limits).errors = [])
  (hgap : (parse source limits).tree.plain = g.around [])
  (hcs : cs = [] ∨ cs = [Word.comma]) (hds : ds = [] ∨ ds = [Word.comma])
  (hentries : symbols Word.kind (g.siblings (spliced Word.kind cs name.word (words run) ds)) ∈
    (Form.list (.node .pair)).matches')
  (htokens : tokenize source' = front ++ name :: (run ++ back)) (hname : name.kind = .fieldName)
  (hjunk : Junk run) (hfront : (words front).map Word.chars = (g.before ++ cs).map Word.chars)
  (hback : (words back).map Word.chars = (ds ++ g.after).map Word.chars)
  (hlen : (tokenize source').length ≤ limits.maxIterations)

include hclean hgap hcs hds htokens hname hjunk hfront hback

/-- The words on both sides of the entry are those of the tree without the entry. -/
theorem words_of_clean_gap : words front = g.before ++ cs ∧ words back = ds ++ g.after := by
  have hwords : words (tokenize source) = g.before ++ g.after := by
    rw [← leaves_plain source limits, hgap, Gap.leaves_around, leavesAll, List.append_nil]
  have hwords' : words (tokenize source') =
      words front ++ name.word :: (words run ++ words back) := by
    rw [htokens, words_append, words_cons (isTrivia_of_kind hname rfl), words_append]
  have H := (plain_of_clean hclean).regular
  rw [hgap] at H
  exact words_spliced hcs hds hfront H.atEntry_after hname
    (kindsOf_eq_map_words ▸ hjunk.balanced) hback hwords hwords'

include hentries hlen

theorem parse_spliced : (parse source' limits).tree.plain =
      g.around (spliced Word.kind cs name.word (words run) ds) ∧
    (parse source' limits).errors.length = 1 := by
  obtain ⟨hfront, hback⟩ :=
    words_of_clean_gap hclean hgap hcs hds htokens hname hjunk hfront hback
  have H := plain_of_clean hclean
  rw [hgap] at H
  -- the same gap between the tokens of the second text
  obtain ⟨as, cs, has, hbefore, rfl⟩ := List.map_eq_append_iff.1 hfront
  obtain ⟨ds, bs, hbs, rfl, hafter⟩ := List.map_eq_append_iff.1 hback
  obtain ⟨G, rfl, rfl, rfl⟩ := Gap.exists_map hbefore.symm hafter.symm
  have haround : (G.map word).around [] = (G.around []).map word := by
    rw [Gap.map_around]
    rfl
  rw [haround] at H
  rw [← mapAll_spliced, Gap.siblings_map, symbols_mapAll] at hentries
  have hsignificant : significant (tokenize source') =
      G.before ++ (cs ++ name :: (significant run ++ ds)) ++ G.after := by
    rw [htokens, significant_append, significant_cons (isTrivia_of_kind hname rfl),
      significant_append, has, hbs]
    simp only [List.append_assoc, List.cons_append]
  obtain ⟨htree, hcount⟩ := parse_around (ready_start hlen) H.of_map_word
    ⟨nodup_tokenize source', ⟨front, back, htokens⟩, hname, hjunk⟩ hentries hsignificant
  refine ⟨?_, hcount⟩
  rw [← mapAll_spliced, ← Gap.map_around, ← htree]
  rfl

end

/-! ### With trivia -/

/-- The tree with trivia, without places. -/
def Tree.texts (tree : Tree) : Sketch Word :=
  .node tree.root.kind (mapAll word (Element.trees tree.root.children))

theorem Tree.strip_texts (tree : Tree) : tree.texts.strip Word.isTrivia = [tree.plain] := by
  rw [texts, strip, stripAll_mapAll]
  exact congrArg (fun xs => [Sketch.node tree.root.kind (mapAll word xs)])
    (Element.stripAll_trees tree.root.children)

theorem leaves_texts (source : String) (limits : Limits) :
    (parse source limits).tree.texts.leaves = (tokenize source).map word := by
  obtain ⟨es, q, hroot, -, hleaves, -⟩ := exists_root source limits
  rw [Tree.texts, hroot, leaves, leavesAll_mapAll, Element.leavesAll_trees, hleaves]

/-- Below the root trees are tight when every node has a token. -/
theorem tight_texts {source : String} {limits : Limits}
    (h : Filled [(parse source limits).tree.plain]) :
    ∃ xs, (parse source limits).tree.texts = .node .file xs ∧ Tight Word.isTrivia xs := by
  obtain ⟨es, q, hroot, -, hleaves, hsnug⟩ := exists_root source limits
  rw [Tree.plain, hroot] at h
  rw [Tree.texts, hroot]
  cases h with | node _ hes _ =>
  have htight : Tight (Word.isTrivia ∘ word) (Element.trees es) := (hsnug hes.of_mapAll).tight
  exact ⟨_, rfl, htight.mapAll⟩

theorem words_eq_filter (ts : List Token) :
    words ts = (ts.map word).filter (!·.isTrivia) := by
  rw [List.filter_map]
  rfl

/-- The words at both ends of a text are a matter of the characters there: they are those of another
text with the same characters at its ends when they are so without trivia. -/
theorem words_of_sides {source source' : String} {left left' mid right right' : List Word}
    {front run back : List Token} (hsides : (tokenize source).map word = left ++ (mid ++ right))
    (hleft : left.filter (!·.isTrivia) = left') (hright : right.filter (!·.isTrivia) = right')
    (htokens : tokenize source' = front ++ (run ++ back))
    (hfront : front.map Token.chars = left.map Word.chars)
    (hback : back.map Token.chars = right.map Word.chars) :
    ((words front).map Word.chars = left'.map Word.chars ∧
      (words front = left' → front.map word = left)) ∧
    ((words back).map Word.chars = right'.map Word.chars ∧
      (words back = right' → back.map word = right)) := by
  subst hleft hright
  obtain ⟨us, ms, hus, rfl, hms⟩ := List.map_eq_append_iff.1 hsides
  obtain ⟨ms, vs, rfl, -, rfl⟩ := List.map_eq_append_iff.1 hms
  rw [← words_eq_filter, ← words_eq_filter]
  rw [List.map_map] at hfront hback
  have hmem : ∀ u ∈ us ++ (ms ++ vs), u ∈ tokenize source := fun u hu => hus ▸ hu
  have hmem' : ∀ u ∈ front ++ (run ++ back), u ∈ tokenize source' := fun u hu => htokens ▸ hu
  exact ⟨words_of_chars_eq (fun u hu => hmem' u (by simp [hu])) (fun u hu => hmem u (by simp [hu]))
      hfront,
    words_of_chars_eq (fun u hu => hmem' u (by simp [hu])) (fun u hu => hmem u (by simp [hu])) hback⟩

/-- A text that differs from one without errors by a damaged entry in a slot of its tree has one
error, and the same tree around a pair without a value. -/
theorem parse_damaged_entry (source source' : String) (limits : Limits) (slot : Slot)
    (trivia : List Trivia) (front cs run ds back : List Token) (name : Token)
    (hclean : (parse source limits).errors = [])
    (hslot : (parse source limits).tree.texts = slot.around (trivia.map Trivia.leaf))
    (htokens : tokenize source' = front ++ (cs ++ name :: (run ++ (ds ++ back))))
    (hfront : front.map Token.chars = slot.before.map Word.chars)
    (hback : back.map Token.chars = slot.after.map Word.chars)
    (hcs : words cs = [] ∨ words cs = [Word.comma])
    (hds : words ds = [] ∨ words ds = [Word.comma])
    (hentries : symbols Word.kind
      (slot.gap.siblings (spliced Word.kind (words cs) name.word (words run) (words ds))) ∈
        (Form.list (.node .pair)).matches')
    (hname : name.kind = .fieldName) (hjunk : Junk run)
    (hlen : (tokenize source').length ≤ limits.maxIterations) :
    (parse source' limits).errors.length = 1 ∧
      ∃ entry, (parse source' limits).tree.texts = slot.around entry ∧
        leavesAll entry = (cs ++ name :: (run ++ ds)).map word ∧
        stripAll Word.isTrivia entry =
          spliced Word.kind (words cs) name.word (words run) (words ds) := by
  have hgap : (parse source limits).tree.plain = slot.gap.around [] := by
    have hstrip := (parse source limits).tree.strip_texts
    rw [hslot, Slot.strip_around, Trivia.stripAll_map_leaf] at hstrip
    exact (List.cons.inj hstrip).1.symm
  have hsides : (tokenize source).map word =
      slot.before ++ (leavesAll (trivia.map Trivia.leaf) ++ slot.after) := by
    rw [← leaves_texts source limits, hslot, Slot.leaves_around, List.append_assoc]
  have hjoined : tokenize source' = front ++ ((cs ++ name :: (run ++ ds)) ++ back) := by
    simp only [htokens, List.append_assoc, List.cons_append]
  obtain ⟨⟨hchars, hfull⟩, hchars', hfull'⟩ :=
    words_of_sides hsides slot.before_gap.symm slot.after_gap.symm hjoined hfront hback
  have htokens' : tokenize source' = (front ++ cs) ++ name :: (run ++ (ds ++ back)) := by
    rw [htokens, List.append_assoc]
  have hfront' : (words (front ++ cs)).map Word.chars =
      (slot.gap.before ++ words cs).map Word.chars := by
    rw [words_append, List.map_append, List.map_append, hchars]
  have hback' : (words (ds ++ back)).map Word.chars =
      (words ds ++ slot.gap.after).map Word.chars := by
    rw [words_append, List.map_append, List.map_append, hchars']
  obtain ⟨hplain, hcount⟩ := parse_spliced hclean hgap hcs hds hentries htokens' hname hjunk hfront'
    hback' hlen
  obtain ⟨hwords, hwords'⟩ :=
    words_of_clean_gap hclean hgap hcs hds htokens' hname hjunk hfront' hback'
  rw [words_append] at hwords hwords'
  have H := plain_of_clean hclean
  rw [hgap] at H
  have hfilled := (H.regular.around .spliced hentries).filled fun _ h => h ▸ filled_damaged
  have hentry : ((cs ++ name :: (run ++ ds)).map word).filter (!·.isTrivia) =
      leavesAll (spliced Word.kind (words cs) name.word (words run) (words ds)) := by
    rw [← words_eq_filter, words_append, words_cons (isTrivia_of_kind hname rfl), words_append,
      leavesAll_spliced]
  obtain ⟨entry, hstrip, hleaves, hentry⟩ := exists_tight filled_spliced hentry
  refine ⟨hcount, entry, ?_, hleaves, hstrip⟩
  obtain ⟨xs, hxs, Hxs⟩ := tight_texts (hgap ▸ H.filled)
  obtain ⟨ys, hys, Hys⟩ := tight_texts (hplain ▸ hfilled)
  rw [hslot] at hxs
  rw [hys]
  refine Slot.eq_around hxs Hxs Hys hentry ?_ ?_
  · rw [← hys, leaves_texts, Slot.leaves_around, htokens, hleaves,
      ← hfull (List.append_cancel_right hwords), ← hfull' (List.append_cancel_left hwords')]
    simp only [List.map_append, List.map_cons, List.append_assoc, List.cons_append]
  · rw [← hys, Tree.strip_texts, Slot.strip_around, hstrip, hplain]

/-- The slot in front of the entry of the object in `m { o: { b: 1 } }`. -/
def Slot.inObject : Slot :=
  let blank : Sketch Word := .leaf ⟨.whitespace, [' ']⟩
  let colon : Sketch Word := .leaf ⟨.equals, [':']⟩
  let entry : Sketch Word := .node .pair
    [.node .fieldName [.leaf ⟨.fieldName, ['b']⟩], colon, blank, .node .value [.leaf ⟨.number, ['1']⟩]]
  let pair : Slot := .child .pair [.node .fieldName [.leaf ⟨.fieldName, ['o']⟩], colon, blank]
    (.child .value [] (.body none [blank] [entry, blank]) []) []
  .child .file []
    (.child .blueprint [.node .blueprintType [.leaf ⟨.blueprintTypeName, ['m']⟩], blank,
        .leaf .openBrace, blank]
      (.child .members [] pair []) [blank, .leaf .closeBrace])
    [.leaf ⟨.eof, []⟩]

/-- An entry without a value in front of the one in an object. -/
theorem parse_damaged_entry_object : ∃ entry,
    (parse "m \x7b o: \x7b b: 1 \x7d \x7d" ⟨9, 50⟩).tree.texts = Slot.inObject.around [] ∧
      (parse "m \x7b o: \x7b a = , b: 1 \x7d \x7d" ⟨9, 50⟩).tree.texts =
        Slot.inObject.around entry ∧
      (parse "m \x7b o: \x7b a = , b: 1 \x7d \x7d" ⟨9, 50⟩).errors.length = 1 := by
  have hslot : (parse "m \x7b o: \x7b b: 1 \x7d \x7d" ⟨9, 50⟩).tree.texts =
      Slot.inObject.around [] := by decide +kernel
  -- the name is the tenth token, and an operator with blanks around it comes after it
  let tokens := tokenize "m \x7b o: \x7b a = , b: 1 \x7d \x7d"
  let equals : Token := ⟨11, .equals, ⟨11, 12, 1, 12⟩, ['=']⟩
  have hjunk : Junk ((tokens.drop 10).take 3) := Junk.of_equals (e := equals) (by decide +kernel) rfl
  have hcomma : words ((tokens.drop 13).take 2) = [Word.comma] := by decide +kernel
  have hentries : ∀ name run, Sketch.symbols Word.kind (Slot.inObject.gap.siblings
      (spliced Word.kind [] name run [Word.comma])) ∈ (Form.list (.node .pair)).matches' :=
    fun _ _ => mem_list_iff.2 (.inr ⟨_, mem_optional.2 (.inr (mem_list_iff.2 (.inl rfl))), rfl⟩)
  obtain ⟨hcount, entry, hentry, -⟩ := parse_damaged_entry "m \x7b o: \x7b b: 1 \x7d \x7d"
    "m \x7b o: \x7b a = , b: 1 \x7d \x7d" ⟨9, 50⟩ .inObject [] (tokens.take 9) []
    ((tokens.drop 10).take 3) ((tokens.drop 13).take 2) (tokens.drop 15)
    (tokens.get ⟨9, by decide +kernel⟩)
    (by decide +kernel) hslot (by decide +kernel) (by decide +kernel) (by decide +kernel)
    (by decide +kernel) (.inr hcomma) (hcomma ▸ hentries _ _) (by decide +kernel) hjunk
    (by decide +kernel)
  exact ⟨entry, hslot, hentry, hcount⟩

end Blueprint
