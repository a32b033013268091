import Blueprint.Proofs.Grammar.Contains
import Blueprint.Proofs.Grammar.Parses.Adjacent

/-!
# Damaged entries without a comma

In a text without errors an entry and the comma behind it become a damaged entry with whitespace
behind it. Then the entry is one pair without a value, and all around it the tree is what it was, but
there are two errors: one about the entry and one about the comma that is missed in front of the next
entry (`parse_adjacent_entry`).
-/

namespace Blueprint

open NodeKind Form Token Sketch Rule

/-- What stands in front of a token in a text starts in front of it. -/
theorem TokenStream.start_lt_of_append {source : String} {us vs : List Token} {t : Token}
    (h : tokenize source = us ++ t :: vs) (ht : t.kind ≠ .eof) :
    ∀ u ∈ us, u.span.start < t.span.start := by
  rcases List.eq_nil_or_concat' vs with rfl | ⟨vs, v, rfl⟩
  · cases (List.append_inj' h rfl).2
    exact absurd rfl ht
  · rw [tokenize, TokenStream.toList, ← List.cons_append, ← List.append_assoc] at h
    have hstarts := TokenStream.pairwise_start source
    rw [(List.append_inj' h rfl).1, List.pairwise_append] at hstarts
    exact fun u hu => hstarts.2.2 u hu t (.head _)

/-- The error about a damaged entry and the one about the comma behind it are both recorded. -/
theorem Rule.MissesComma.recorded_eq {source : String} {front run back : List Token}
    {name next : Token} {errors : List SyntaxError}
    (htokens : tokenize source = front ++ name :: (run ++ next :: back))
    (hnext : next.kind = .fieldName) (h : MissesComma name run next errors) :
    SyntaxError.recorded errors = errors := by
  obtain ⟨e, ⟨t, ht, he⟩, rfl⟩ := h
  have hsplit : tokenize source = (front ++ name :: run) ++ next :: back := by
    rw [htokens, List.append_assoc, List.cons_append]
  refine SyntaxError.recorded_eq_self (List.pairwise_pair.2 ?_)
  rw [he]
  exact TokenStream.start_lt_of_append hsplit (by rw [hnext]; decide) t (List.mem_append_right _ ht)

/-! ### The entry between tokens -/

section

variable {source : String} {limits : Limits} {Q : Hole Token} {left cs ds right : List (Sketch Token)}
  {front run back : List Token} {name next t : Token}

/-- The entries of a regular tree with a damaged one in the place of an entry and its comma. -/
theorem parse_replaced (hready : Ready limits (State.start source))
    (H : CleanTree Token.kind limits.maxDepth (Q.fill (.node .members
      (left ++ .node .pair cs :: .leaf t :: .node .pair ds :: right))))
    (A : (⟨limits, tokenize source, fun _ => False⟩ : Script).Adjacent name run next)
    (hne : significant run ≠ []) (hnext : (leavesAll ds).head? = some next)
    (htokens : significant (tokenize source) = Q.before ++ (leavesAll left ++
      name :: (significant run ++ (leavesAll (.node .pair ds :: right) ++ Q.after)))) :
    .node .file (Element.sketches (parse source limits).tree.root.children) =
        Q.fill (.node .members (left ++ .node .pair (damaged Token.kind name (significant run)) ::
          .node .pair ds :: right)) ∧
      ∃ errors, MissesComma name run next errors ∧ (parse source limits).errors = errors.reverse := by
  have hS := Script.sound_of_false limits (tokenize source)
  obtain ⟨R, hcovers⟩ := Covers.fill hS (fun above H Hw => ⟨Covers.resembles_adjacent A H Hw,
    Covers.adjacent A H Hw hS hne hnext⟩) H.regular H.within
  obtain ⟨htree, errors, herrors, hrecorded⟩ := parse_covers hready hcovers
    (R.symbol_eq.symm.trans H.symbol_eq) <| by
      rw [Hole.leaves_fill, htokens]
      simp only [leaves, leavesAll_append, leavesAll, leavesAll_damaged, List.append_assoc,
        List.cons_append]
  obtain ⟨front, back, hsplit⟩ := A.exists_tokens
  rw [herrors.recorded_eq hsplit A.kind_next] at hrecorded
  exact ⟨htree, errors, herrors, hrecorded⟩

end

/-! ### The entry between words -/

/-- Behind the name of an entry brackets are balanced. -/
theorem Regular.balanced_entry {α : Type} {kind : α → TokenKind} {a : α} {cs : List (Sketch α)}
    (H : Regular kind (fun _ => False) [.node .pair (.node .fieldName [.leaf a] :: cs)]) :
    Balanced ((leavesAll cs).map kind) := by
  obtain ⟨_, c, vs, he, -, hc, Hv⟩ := H.pair.resolve_left id
  obtain ⟨-, rfl⟩ := List.cons.inj he
  have hvalue := Hv.balanced nofun
  rw [leavesAll, leavesAll_node, leaves, List.singleton_append, List.map_cons, hc]
  exact .cons (by decide) hvalue

theorem Regular.atEntry_pair {α : Type} {kind : α → TokenKind} {cs : List (Sketch α)}
    (H : Regular kind (fun _ => False) [.node .pair cs]) (right : List (Sketch α)) (as : List α) :
    AtEntry ((leavesAll (.node .pair cs :: right) ++ as).map kind) := by
  obtain ⟨a, c, vs, rfl, ha, hc, -⟩ := H.pair.resolve_left id
  simp only [leavesAll, leaves, List.cons_append, List.nil_append, List.map_cons, ha, hc]
  exact .entry

section

variable {source source' : String} {limits : Limits} {H : Hole Word}
  {left cs ds right : List (Sketch Word)} {front run back : List Token} {name next : Token}
  (hclean : (parse source limits).errors = [])
  (hplain : (parse source limits).tree.plain = H.fill (.node .members (left ++
    .node .pair (.node .fieldName [.leaf name.word] :: cs) :: .leaf .comma ::
      .node .pair ds :: right)))
  (hname : name.kind = .fieldName) (hjunk : Junk run)
  (hfront : (words front).map Word.chars = (H.before ++ leavesAll left).map Word.chars)
include hclean hplain hname hjunk hfront

/-- The words on both sides of the entry are those of the text without errors. -/
theorem words_of_clean_entry (htokens : tokenize source' = front ++ name :: (run ++ back))
    (hback : (words back).map Word.chars =
      (leavesAll (.node .pair ds :: right) ++ H.after).map Word.chars) :
    words front = H.before ++ leavesAll left ∧
      words back = leavesAll (.node .pair ds :: right) ++ H.after := by
  have hregular := (plain_of_clean hclean).regular
  rw [hplain] at hregular
  have Hright := (hregular.of_fill.of_node (by decide)).2.right
  have hwords : words (tokenize source) = (H.before ++ leavesAll left) ++ name.word ::
      ((leavesAll cs ++ [.comma]) ++ (leavesAll (.node .pair ds :: right) ++ H.after)) := by
    rw [← leaves_plain source limits, hplain, Hole.leaves_fill]
    simp only [leaves, leavesAll_append, leavesAll, List.append_assoc, List.cons_append,
      List.nil_append]
  have hwords' : words (tokenize source') = words front ++ name.word :: (words run ++ words back) := by
    rw [htokens, words_append, words_cons (isTrivia_of_kind hname rfl), words_append]
  refine words_replaced hfront hname ?_ (Hright.tail.of_leaf.head.atEntry_pair right H.after) hname
    (kindsOf_eq_map_words ▸ hjunk.balanced) hback hwords hwords'
  rw [List.map_append]
  exact Hright.head.balanced_entry.append (.cons (by decide) .nil)

theorem parse_adjacent (htokens : tokenize source' = front ++ name :: (run ++ next :: back))
    (hback : (words (next :: back)).map Word.chars =
      (leavesAll (.node .pair ds :: right) ++ H.after).map Word.chars)
    (hnext : next.isTrivia = false) (hne : significant run ≠ [])
    (hspace : ∃ w ∈ run.rtakeWhile Token.isTrivia, w.kind = .whitespace)
    (hlen : (tokenize source').length ≤ limits.maxIterations) :
    (parse source' limits).tree.plain = H.fill (.node .members (left ++
        .node .pair (damaged Word.kind name.word (words run)) :: .node .pair ds :: right)) ∧
      ∃ errors, MissesComma name run next errors ∧ (parse source' limits).errors = errors.reverse := by
  have hwhole := plain_of_clean hclean
  rw [hplain] at hwhole
  obtain ⟨hwords, hwords'⟩ := words_of_clean_entry hclean hplain hname hjunk hfront htokens hback
  -- the same hole between the tokens of the second text
  obtain ⟨us, ls, hus, hbefore, hls⟩ := List.map_eq_append_iff.1 hwords
  obtain ⟨es, vs, hvs, hes, hafter⟩ := List.map_eq_append_iff.1 hwords'
  obtain ⟨ns, rs, rfl, hns, hrs⟩ := List.map_eq_append_iff.1 hes
  obtain ⟨Q, rfl, rfl, rfl⟩ := Hole.exists_map hbefore.symm hafter.symm
  obtain ⟨left, rfl, rfl⟩ := exists_mapAll hls.symm
  obtain ⟨ds, rfl, rfl⟩ := exists_mapAll hns.symm
  obtain ⟨right, rfl, rfl⟩ := exists_mapAll hrs.symm
  obtain ⟨ws, hws⟩ := Token.exists_map_word (leavesAll cs)
  obtain ⟨cs, rfl, -⟩ := exists_mapAll hws.symm
  obtain ⟨t, ht⟩ : ∃ t : Token, t.word = .comma := ⟨⟨0, .separator, ⟨0, 0, 0, 0⟩, [',']⟩, rfl⟩
  have hmap : (Q.map word).fill (.node .members (mapAll word left ++
      .node .pair (.node .fieldName [.leaf name.word] :: mapAll word cs) :: .leaf .comma ::
        .node .pair (mapAll word ds) :: mapAll word right)) =
      (Q.fill (.node .members (left ++ .node .pair (.node .fieldName [.leaf name] :: cs) ::
        .leaf t :: .node .pair ds :: right))).map word := by
    rw [Hole.map_fill, Sketch.map, mapAll_append, ← ht]
    rfl
  rw [hmap] at hwhole
  have Hwhole := hwhole.of_map_word
  have Hright := (Hwhole.regular.of_fill.of_node (by decide)).2.right
  obtain ⟨n, e, vs, rfl, hn, -⟩ := Hright.tail.of_leaf.head.pair.resolve_left id
  rw [significant_cons hnext] at hvs
  obtain ⟨rfl, hvs⟩ := List.cons.inj hvs
  have hsignificant : significant (tokenize source') = Q.before ++ (leavesAll left ++ name ::
      (significant run ++ (leavesAll (.node .pair [.node .fieldName [.leaf next], .leaf e,
        .node .value vs] :: right) ++ Q.after))) := by
    rw [htokens, significant_append, significant_cons (isTrivia_of_kind hname rfl),
      significant_append, significant_cons hnext, hus, hvs]
    simp only [List.append_assoc, List.cons_append, leavesAll, leaves, List.nil_append]
  obtain ⟨htree, herrors⟩ := parse_replaced (ready_start hlen) Hwhole
    ⟨nodup_tokenize source', ⟨front, back, htokens⟩, hname, hn, hjunk, hspace⟩ hne rfl hsignificant
  refine ⟨?_, herrors⟩
  have hdamaged := mapAll_damaged word Word.kind name (significant run)
  have hplain' : (parse source' limits).tree.plain = Sketch.map word (.node .file
      (Element.sketches (parse source' limits).tree.root.children)) := rfl
  rw [hplain', htree, Hole.map_fill, Sketch.map, mapAll_append, words, ← hdamaged]
  rfl

end

/-! ### With trivia -/

section

variable {left cs ds right entry : List (Sketch Word)} {as bs : List Trivia} {name : Word}

/-- Entries with one that starts with `name`, a comma and another one among them. -/
abbrev Sketch.separated (left : List (Sketch Word)) (name : Word) (cs : List (Sketch Word))
    (as bs : List Trivia) (ds right : List (Sketch Word)) : List (Sketch Word) :=
  left ++ .node .pair (.node .fieldName [.leaf name] :: cs) ::
    (as.map Trivia.leaf ++ .leaf .comma :: (bs.map Trivia.leaf ++ .node .pair ds :: right))

theorem Sketch.strip_separated (hname : name.isTrivia = false) :
    (Sketch.node .members (separated left name cs as bs ds right)).strip Word.isTrivia =
      [.node .members (stripAll Word.isTrivia left ++
        .node .pair (.node .fieldName [.leaf name] :: stripAll Word.isTrivia cs) :: .leaf .comma ::
          .node .pair (stripAll Word.isTrivia ds) :: stripAll Word.isTrivia right)] := by
  simp only [separated, strip, stripAll, stripAll_append, Trivia.stripAll_map_leaf, hname,
    Bool.false_eq_true, if_false, List.nil_append, List.cons_append]
  rfl

theorem Sketch.leavesAll_separated : ∃ mid, leavesAll (separated left name cs as bs ds right) =
    (leavesAll left ++ name :: mid) ++ leavesAll (.node .pair ds :: right) := by
  refine ⟨leavesAll cs ++ (as.map Subtype.val ++ Word.comma :: bs.map Subtype.val), ?_⟩
  simp only [separated, leavesAll, leaves, leavesAll_append, Slot.leavesAll_map_trivia,
    List.append_assoc, List.cons_append, List.nil_append]

/-- What stands behind the comma is tight. -/
theorem Sketch.tight_of_separated
    (H : Tight Word.isTrivia [.node .members (separated left name cs as bs ds right)]) :
    Tight Word.isTrivia (.node .pair ds :: right) := by
  cases H with | node _ _ H _ =>
  have hpair := H.of_append.2
  cases hpair with | node _ _ _ hright =>
  have hcomma := hright.of_append.2
  cases hcomma with | leaf hcomma =>
  exact hcomma.of_append.2

/-- Tight entries with a tight one in the place of an entry and its comma start and stop with what they
did. -/
theorem Sketch.tight_replaced {ws : List Word}
    (H : Tight Word.isTrivia [.node .members (separated left name cs as bs ds right)])
    (hentry : Tight Word.isTrivia entry) (hleaves : leavesAll entry = name :: ws) :
    Tight Word.isTrivia [.node .members (left ++ (entry ++ .node .pair ds :: right))] ∧
      (leavesAll (separated left name cs as bs ds right)).head? =
        (leavesAll (left ++ (entry ++ .node .pair ds :: right))).head? ∧
      (leavesAll (separated left name cs as bs ds right)).getLast? =
        (leavesAll (left ++ (entry ++ .node .pair ds :: right))).getLast? := by
  have hnext := tight_of_separated H
  cases H with | node hfirst hstop H _ =>
  obtain ⟨a, us, ha, -⟩ := hnext.head_node
  obtain ⟨mid, hmid⟩ := @leavesAll_separated left cs ds right as bs name
  have hrow : leavesAll (left ++ (entry ++ .node .pair ds :: right)) =
      (leavesAll left ++ name :: ws) ++ leavesAll (.node .pair ds :: right) := by
    rw [leavesAll_append, leavesAll_append, hleaves, List.append_assoc]
  have hhead : (leavesAll (separated left name cs as bs ds right)).head? =
      (leavesAll (left ++ (entry ++ .node .pair ds :: right))).head? := by
    rw [hmid, hrow]
    cases leavesAll left <;> rfl
  have hlast : (leavesAll (separated left name cs as bs ds right)).getLast? =
      (leavesAll (left ++ (entry ++ .node .pair ds :: right))).getLast? := by
    have hne : leavesAll (.node .pair ds :: right) ≠ [] := ha ▸ List.cons_ne_nil a us
    rw [hmid, hrow, List.getLast?_append_of_ne_nil _ hne, List.getLast?_append_of_ne_nil _ hne]
  have hchildren := H.of_append.1.append (hentry.append hnext)
  exact ⟨.node (hhead ▸ hfirst) (hlast ▸ hstop) hchildren .nil, hhead, hlast⟩

end

/-- Every node has a leaf with a damaged entry in the place of an entry and its comma. -/
theorem Hole.filled_replaced {α : Type} {kind : α → TokenKind} {p : Hole α}
    {left cs right : List (Sketch α)} {a name : α} {junk : List α}
    (H : Filled [p.fill (.node .members (left ++ .node .pair cs :: .leaf a :: right))]) :
    Filled [p.fill (.node .members (left ++ .node .pair (damaged kind name junk) :: right))] := by
  have hne : leavesAll (left ++ .node .pair (damaged kind name junk) :: right) ≠ [] := by
    rw [leavesAll_append, leavesAll, leaves, leavesAll_damaged]
    exact List.append_ne_nil_of_right_ne_nil _ (List.cons_ne_nil _ _)
  refine Hole.filled_fill H (fun H => .node hne ?_ .nil) hne
  cases H with | node _ H _ =>
  obtain ⟨hleft, hright⟩ := H.of_append
  cases hright with | node _ _ hright =>
  cases hright with | leaf hright =>
  exact hleft.append (filled_damaged.append hright)

section

variable {source source' : String} {limits : Limits} {hole : Hole Word}
  {left cs ds right entry : List (Sketch Word)} {as bs : List Trivia} {name : Word}
  (hclean : (parse source limits).errors = [])
  (hhole : (parse source limits).tree.texts =
    hole.fill (.node .members (separated left name cs as bs ds right)))
include hclean hhole

/-- The entries of a text without errors are tight. -/
theorem tight_of_clean : ∃ xs,
    hole.fill (.node .members (separated left name cs as bs ds right)) = .node .file xs ∧
      Tight Word.isTrivia xs ∧
      Tight Word.isTrivia [.node .members (separated left name cs as bs ds right)] := by
  obtain ⟨xs, hxs, Hxs⟩ := tight_texts (plain_of_clean hclean).filled
  rw [hhole] at hxs
  exact ⟨xs, hxs, Hxs, hole.tight_of_fill_file hxs (fun h => by cases h) Hxs⟩

/-- Around an entry the tree of another text is known by the words of that text and by the tree
without trivia. -/
theorem texts_of_plain_entry {ws : List Word} (hfilled : Filled [(parse source' limits).tree.plain])
    (hentry : Tight Word.isTrivia entry) (hleaves : leavesAll entry = name :: ws)
    (hwords : (tokenize source').map word =
      (hole.fill (.node .members (left ++ (entry ++ .node .pair ds :: right)))).leaves)
    (hplain : (parse source' limits).tree.plain = (hole.strip Word.isTrivia).fill (.node .members
      (stripAll Word.isTrivia left ++ (stripAll Word.isTrivia entry ++
        .node .pair (stripAll Word.isTrivia ds) :: stripAll Word.isTrivia right)))) :
    (parse source' limits).tree.texts =
      hole.fill (.node .members (left ++ (entry ++ .node .pair ds :: right))) := by
  obtain ⟨xs, hxs, Hxs, htight⟩ := tight_of_clean hclean hhole
  obtain ⟨ys, hys, Hys⟩ := tight_texts hfilled
  obtain ⟨Hrow, hhead, hlast⟩ := tight_replaced htight hentry hleaves
  rw [hys]
  refine Hole.eq_fill hxs (fun h => by cases h) Hxs Hys (fun _ => Hrow) hhead hlast ?_ ?_
  · rw [← hys, leaves_texts, hwords]
  · rw [← hys, Tree.strip_texts, hplain]
    refine (Hole.strip_fill hole ?_).symm
    rw [strip, stripAll_append, stripAll_append]
    rfl

end

/-- In a text without errors an entry and the comma behind it are replaced by the name of the entry
and a run that is junk and has whitespace at its end. Then there are two errors, about the entry and
about the comma in front of the next one, the entry is a pair without a value, and all around it the
tree is what it was. -/
theorem parse_adjacent_entry (source source' : String) (limits : Limits) (hole : Hole Word)
    (left cs ds right : List (Sketch Word)) (as bs : List Trivia) (front run back : List Token)
    (name next : Token) (hclean : (parse source limits).errors = [])
    (hhole : (parse source limits).tree.texts =
      hole.fill (.node .members (separated left name.word cs as bs ds right)))
    (htokens : tokenize source' = front ++ name :: (run ++ next :: back))
    (hfront : front.map Token.chars = (hole.before ++ leavesAll left).map Word.chars)
    (hback : (next :: back).map Token.chars =
      (leavesAll (.node .pair ds :: right) ++ hole.after).map Word.chars)
    (hname : name.kind = .fieldName) (hjunk : Junk run) (hne : significant run ≠ [])
    (hspace : ∃ w ∈ run.rtakeWhile Token.isTrivia, w.kind = .whitespace)
    (hlen : (tokenize source').length ≤ limits.maxIterations) :
    (∃ e, BlamesEntry name run e ∧ (parse source' limits).errors =
        [e, ⟨.unexpectedToken [.separator, .objectEnd] .fieldName, next.span⟩]) ∧
      ∃ entry, (parse source' limits).tree.texts =
          hole.fill (.node .members (left ++ (entry ++ .node .pair ds :: right))) ∧
        leavesAll entry = (name :: run).map word ∧
        stripAll Word.isTrivia entry = [.node .pair (damaged Word.kind name.word (words run))] := by
  have htrivia : name.isTrivia = false := isTrivia_of_kind hname rfl
  have hplain := Tree.plain_of_texts hhole (strip_separated htrivia)
  obtain ⟨mid, hmid⟩ := @leavesAll_separated left cs ds right as bs name.word
  have hsides : (tokenize source).map word = (hole.before ++ leavesAll left) ++
      ((name.word :: mid) ++ (leavesAll (.node .pair ds :: right) ++ hole.after)) := by
    rw [← leaves_texts source limits, hhole, Hole.leaves_fill, leaves, hmid]
    simp only [List.append_assoc]
  have hjoined : tokenize source' = front ++ ((name :: run) ++ next :: back) := htokens
  have hbefore : (hole.before ++ leavesAll left).filter (!·.isTrivia) =
      (hole.strip Word.isTrivia).before ++ leavesAll (stripAll Word.isTrivia left) := by
    rw [List.filter_append, Hole.before_strip, leavesAll_stripAll]
  have hafter : (leavesAll (.node .pair ds :: right) ++ hole.after).filter (!·.isTrivia) =
      leavesAll (.node .pair (stripAll Word.isTrivia ds) :: stripAll Word.isTrivia right) ++
        (hole.strip Word.isTrivia).after := by
    rw [List.filter_append, Hole.after_strip]
    exact congrArg (· ++ _) (leavesAll_stripAll (.node .pair ds :: right)).symm
  obtain ⟨⟨hchars, hfull⟩, hchars', hfull'⟩ :=
    words_of_sides hsides hbefore hafter hjoined hfront hback
  obtain ⟨hsame, hsame'⟩ := words_of_clean_entry hclean hplain hname hjunk hchars htokens hchars'
  have hnext : next.isTrivia = false := by
    obtain ⟨-, -, -, htight⟩ := tight_of_clean hclean hhole
    obtain ⟨a, us, ha, htriv⟩ := (tight_of_separated htight).head_node
    have hword := hfull' hsame'
    rw [ha] at hword
    exact (congrArg Word.isTrivia (List.cons.inj hword).1).trans htriv
  obtain ⟨hplain', errors, ⟨e, he, rfl⟩, herrors⟩ := parse_adjacent hclean hplain hname hjunk hchars
    htokens hchars' hnext hne hspace hlen
  refine ⟨⟨e, he, herrors⟩, ?_⟩
  -- trivia is put back where it is in the text
  have hfilter : ((name :: run).map word).filter (!·.isTrivia) =
      leavesAll [.node .pair (damaged Word.kind name.word (words run))] := by
    rw [← words_eq_filter, words_cons htrivia, leavesAll_node, leavesAll_damaged]
  obtain ⟨entry, hstrip, hleaves, hentry⟩ := exists_tight filled_damaged hfilter
  have hfilled : Filled [(parse source' limits).tree.plain] := by
    have H := (plain_of_clean hclean).filled
    rw [hplain] at H
    exact hplain' ▸ Hole.filled_replaced H
  refine ⟨entry, texts_of_plain_entry hclean hhole hfilled hentry hleaves ?_ ?_, hleaves, hstrip⟩
  · rw [Hole.leaves_fill, leaves, leavesAll_append, leavesAll_append, hleaves, ← List.append_assoc,
      hjoined, List.map_append, List.map_append, hfull hsame, hfull' hsame']
    simp only [List.append_assoc]
  · rw [hstrip]
    exact hplain'

/-- The entries are left out of `m { a = 1, b = 2 }`, in two lines. -/
def Hole.inModule : Hole Word :=
  let blank : Sketch Word := .leaf ⟨.whitespace, [' ']⟩
  .child .file []
    (.child .blueprint [.node .blueprintType [.leaf ⟨.blueprintTypeName, ['m']⟩], blank,
      .leaf .openBrace, blank] .here [blank, .leaf .closeBrace])
    [.leaf ⟨.eof, []⟩]

/-- The value and the comma behind it are left out in front of a new line. -/
theorem parse_adjacent_entry_module : ∃ entry next,
    (parse "m \x7b a = 1,\n b = 2 \x7d" ⟨9, 50⟩).errors = [] ∧
      (parse "m \x7b a = \n b = 2 \x7d" ⟨9, 50⟩).tree.texts =
        Hole.inModule.fill (.node .members (entry ++ [next])) ∧
      (parse "m \x7b a = \n b = 2 \x7d" ⟨9, 50⟩).errors.length = 2 := by
  let blank : Sketch Word := .leaf ⟨.whitespace, [' ']⟩
  let after (c : Char) : List (Sketch Word) :=
    [blank, .leaf ⟨.equals, ['=']⟩, blank, .node .value [.leaf ⟨.number, [c]⟩]]
  let ds : List (Sketch Word) := .node .fieldName [.leaf ⟨.fieldName, ['b']⟩] :: after '2'
  let line : Trivia := ⟨⟨.whitespace, ['\n', ' ']⟩, rfl⟩
  -- the name is the fifth token, and an operator with blanks around it comes after it
  let tokens := tokenize "m \x7b a = \n b = 2 \x7d"
  let equals : Token := ⟨6, .equals, ⟨6, 7, 1, 7⟩, ['=']⟩
  have hclean : (parse "m \x7b a = 1,\n b = 2 \x7d" ⟨9, 50⟩).errors = [] := by decide +kernel
  have hjunk : Junk ((tokens.drop 5).take 3) := Junk.of_equals (e := equals) (by decide +kernel) rfl
  obtain ⟨⟨e, -, herrors⟩, entry, hentry, -⟩ := parse_adjacent_entry
    "m \x7b a = 1,\n b = 2 \x7d" "m \x7b a = \n b = 2 \x7d" ⟨9, 50⟩ .inModule [] (after '1') ds [] []
    [line] (tokens.take 4) ((tokens.drop 5).take 3) (tokens.drop 9) (tokens.get ⟨4, by decide +kernel⟩)
    (tokens.get ⟨8, by decide +kernel⟩) hclean (by decide +kernel) (by decide +kernel)
    (by decide +kernel) (by decide +kernel) (by decide +kernel) hjunk (by decide +kernel)
    ⟨⟨7, .whitespace, ⟨7, 10, 1, 8⟩, [' ', '\n', ' ']⟩, by decide +kernel, rfl⟩ (by decide +kernel)
  exact ⟨entry, .node .pair ds, hclean, hentry, congrArg List.length herrors⟩

/-- Without its value and its comma the entry is told of twice. -/
theorem parse_adjacent_twice :
    (parse "m \x7b a = 1,\n b = 2 \x7d" .standard).errors = [] ∧
      (parse "m \x7b a = \n b = 2 \x7d" .standard).errors =
        [⟨.missingValue, ⟨4, 7, 1, 5⟩⟩,
          ⟨.unexpectedToken [.separator, .objectEnd] .fieldName, ⟨10, 11, 2, 2⟩⟩] := by
  constructor <;> decide +kernel

end Blueprint
