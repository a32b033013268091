import Blueprint.Proofs.Grammar.Parses.Junk

/-!
# Junk between two clean texts

Between two texts without errors, on lines of its own, stands loose text that starts no item and
cannot go on with the last one. The items of the first text are parsed as they are alone. The junk is
skipped, with one error, up to the name that the second text starts with (`Rule.itemOrSkip_loose`).
From there on the second text is parsed as it is alone, shifted (`Rule.contents_resumed`): the error
in front of it is the only thing that differs, and the grammar does not look at errors.
-/

namespace Blueprint

open Element Token

namespace Shift

variable (d : Shift)

theorem significant_map_token (ts : List Token) :
    significant (ts.map d.token) = (significant ts).map d.token := by
  simp only [significant, List.filter_map]
  rfl

theorem sketches_elements (es : List Element) :
    sketches (d.elements es) = Sketch.mapAll d.token (sketches es) := by
  induction es using forest_induction with
  | nil => rfl
  | token t es ih =>
    rw [elements, element, sketches, sketches, sketch, sketch, isTrivia_token, ih,
      Sketch.mapAll_append]
    split <;> rfl
  | node i k s cs es ihc ih =>
    rw [elements, element, sketches, sketches, sketch, sketch, ih, ihc]
    rfl

end Shift

/-! ### The first items -/

/-- A file with items starts with the name of one and what comes after it. -/
theorem CleanItems.exists_kinds {depth : Nat} {xs : List (Sketch Token)} (H : CleanItems depth xs)
    (hne : xs ≠ []) :
    ∃ k₁ k₂ ks, (Sketch.leavesAll xs).map Token.kind = k₁ :: k₂ :: ks ∧
      k₁ ∈ [TokenKind.blueprintTypeName, .variableName] ∧
      k₂ ∈ [TokenKind.objectStart, .equals, .plusEquals] := by
  rcases Rule.Parses.item_cases H.production with rfl | ⟨k, cs, ys, rfl, rfl | rfl, -⟩
  · exact absurd rfl hne
  · obtain ⟨n, a, ms, b, rfl, hn, ha, -⟩ := H.regular.head.blueprint
    exact ⟨n.kind, a.kind, _, rfl, by rw [hn]; decide, by rw [ha]; decide⟩
  · obtain ⟨a, b, vs, rfl, ha, hb, -⟩ := H.regular.head.variableDef
    refine ⟨a.kind, b.kind, _, rfl, by rw [ha]; decide, ?_⟩
    rcases hb with hb | hb <;> rw [hb] <;> decide

/-- Items are clean at whatever places their tokens stand. -/
theorem CleanItems.map_token {depth : Nat} {xs : List (Sketch Token)} (H : CleanItems depth xs)
    (d : Shift) : CleanItems depth (Sketch.mapAll d.token xs) where
  regular := .mapAll (f := d.token) H.regular
  production := by
    rw [Sketch.symbols_mapAll]
    exact H.production
  within := Within.mapAll_iff.2 H.within

namespace Rule

variable {limits : Limits} {source : String} {xs ys : List (Sketch Token)} {s u : State}

/-- From any place of a text on, where clean items come next and then the end, the contents of the
file are those items, and no error is raised. -/
theorem contents_items (Hs : Reading ⟨limits, tokenize source, fun _ => False⟩ s)
    (H : CleanItems limits.maxDepth xs) (hs : significant s.rest = Sketch.leavesAll xs) {budget : Nat}
    (hbudget : (Sketch.leavesAll xs).length ≤ budget) :
    (contents limits limits.maxDepth budget).Ensures s fun _ es t =>
      sketches es = xs ∧ t.raised = s.raised := by
  have hitems := Parses.items (Script.sound_of_false limits (tokenize source)) budget H.regular
    H.production hbudget
  rw [← List.append_nil (Sketch.leavesAll xs)] at hs
  refine (hitems s Hs hs).bind fun _ es t hr ht => ?_
  obtain ⟨-, ht, errors, hcut, hraised⟩ := ht
  obtain ⟨hes, rfl⟩ := H.eq_of_cut hcut
  have hend : t.atEof = true := by
    rw [(hr.wf Hs.wf).atEof_iff, State.kinds, kindsOf_eq_map_significant, ht]
    rfl
  rw [Ensures, leftover_of_atEof hend, List.append_nil]
  exact ⟨.refl t, hes, hraised⟩

/-- Behind another text and its errors a text without errors is parsed as it is alone, shifted. -/
theorem contents_resumed {b : String} {d : Shift} {us ts : List Token} {p : Option Span}
    {q : Position} {budget : Nat} (hb : Ready limits (State.start b))
    (H : CleanItems limits.maxDepth xs) (hne : xs ≠ [])
    (hleaves : significant (TokenStream.ofChars b.toList).body = Sketch.leavesAll xs)
    (Hu : Reading ⟨limits, tokenize source, fun _ => False⟩ u) (hstands : u.Stands ts q)
    (hu : { u with raised := [] } = (d.state (State.start b)).behind us p)
    (hlimit : (Sketch.leavesAll xs).length < limits.maxIterations)
    (hbudget : (Sketch.leavesAll xs).length < budget) :
    ∃ es t v, contents limits limits.maxDepth limits.maxIterations (State.start b) =
        ⟨(), (State.start b).pending.map .token ++ es, t⟩ ∧
      contents limits limits.maxDepth budget u = ⟨(), us.map .token ++ d.elements es, v⟩ ∧
      v.raised = u.raised := by
  have Hb := State.wf_start b
  have hstart : significant (State.start b).rest = Sketch.leavesAll xs :=
    (significant_start b).trans hleaves
  have hkinds : (State.start b).kinds = (Sketch.leavesAll xs).map Token.kind := by
    rw [State.kinds, kindsOf_eq_map_significant, hstart]
  have hlength : (State.start b).kinds.length = (Sketch.leavesAll xs).length := by
    rw [hkinds, List.length_map]
  obtain ⟨k₁, k₂, ks, hks, hname, -⟩ := H.exists_kinds hne
  rw [hks] at hkinds
  obtain ⟨es, t, halone, hbehind⟩ := @contents_behind _ limits d limits.maxIterations budget Hb
    (Hb.current_of_kinds hkinds ▸ hname) (hlength ▸ hlimit) (hlength ▸ hlimit) (hlength ▸ hbudget)
    limits.maxDepth us p
  -- alone the text is `xs`, and behind the other one `xs` over the shifted tokens
  have hes : sketches es = xs := by
    have hsketches := (contents_items (reading_start hb) H hstart (Nat.le_of_lt hlimit)).2.1
    rwa [halone, sketches_append, sketches_map_token, significant_eq_nil Hb.isTrivia_pending]
      at hsketches
  have hrest : u.rest = (State.start b).rest.map d.token := congrArg State.rest hu
  have hnext : significant u.rest = Sketch.leavesAll (Sketch.mapAll d.token xs) := by
    rw [hrest, Shift.significant_map_token, hstart, Sketch.leavesAll_mapAll]
  have Hd : CleanItems limits.maxDepth (Sketch.mapAll d.token xs) := H.map_token d
  obtain ⟨hrun, hsketches, hraised⟩ := @contents_items limits source _ u Hu Hd hnext budget
    (by rw [Sketch.leavesAll_mapAll, List.length_map]; exact Nat.le_of_lt hbudget)
  have hpending : us = u.pending := (congrArg State.pending hu).symm
  have hrun' : Run { u with raised := [] } (us.map .token ++ d.elements es) (d.state t) := by
    have hruns : (contents limits limits.maxDepth budget).Runs :=
      (Runs.inherited.items limits limits.maxDepth budget).bind fun _ => Runs.inherited.leftover
    have h := hruns { u with raised := [] }
    rwa [hu, hbehind, ← hu] at h
  have hstands' : ({ u with raised := [] } : State).Stands ts q :=
    { hstands with wf := hstands.wf.unraised }
  have hsame := hrun.eq_of_unattached hrun' hstands hstands' rfl rfl
    (hsketches ▸ Hd.filled)
    (by
      rw [hsketches, sketches_append, sketches_map_token, hpending,
        significant_eq_nil Hu.wf.isTrivia_pending, Shift.sketches_elements, hes]
      rfl)
  exact ⟨es, t, _, halone, by rw [hsame], hraised⟩

/-- Where loose text comes next that starts no item, and then the name of one, the contents of the
file go on with an error node, and then from that name. -/
theorem contents_loose {S : Script} {t : Token} {ts rest : List Token} (H : Reading S s)
    (hs : significant s.rest = t :: (ts ++ rest)) (hloose : Loose ((t :: ts).map Token.kind))
    (hrest : ∃ k ∈ (rest.map Token.kind).head?, k ∈ [TokenKind.blueprintTypeName, .variableName])
    (room budget : Nat) :
    ∃ es u e, Run s es u ∧ significant u.rest = rest ∧
      sketches es = [.node .error ((t :: ts).map .leaf)] ∧
      e.span = t.span ∧ u.raised = e :: s.raised ∧
      contents S.limits room (budget + 1) s = ⟨(), es ++ (contents S.limits room budget u).emitted,
        (contents S.limits room budget u).state⟩ := by
  obtain ⟨hrun, hu, hsketches, e, he, hraised⟩ :=
    @itemOrSkip_loose S s t ts rest room H hs hloose hrest
  have hlength {s : State} {us : List Token} (h : significant s.rest = us) :
      s.kinds.length = us.length := by
    rw [State.kinds, kindsOf_eq_map_significant, h, List.length_map]
  have hmoved : (itemOrSkip S.limits room s).state.position ≠ s.position := by
    rw [Ne, hrun.position_eq_iff H.wf, hlength hu, hlength hs]
    simp only [List.length_cons, List.length_append]
    omega
  exact ⟨_, _, e, hrun, hu, hsketches, he, hraised,
    contents_succ room (State.atEof_of_reading H hs) hmoved rfl⟩

/-- The contents of a clean text, of loose text behind it and of a clean text behind that: the
first as it is, an error node, and the second, shifted. One error is raised. -/
theorem contents_between {a b c : String} {d : Shift} {mid ts : List Token} {t : Token}
    (B : TokenStream.Between d (.ofChars a.toList) (.ofChars b.toList) (.ofChars c.toList) mid)
    (ha : Ready limits (State.start a)) (hb : Ready limits (State.start b))
    (hlen : (tokenize c).length ≤ limits.maxIterations)
    (Hx : CleanItems limits.maxDepth xs)
    (hleaves : significant (TokenStream.ofChars a.toList).body = Sketch.leavesAll xs)
    (Hy : CleanItems limits.maxDepth ys) (hne : ys ≠ [])
    (hleaves' : significant (TokenStream.ofChars b.toList).body = Sketch.leavesAll ys)
    (hmid : significant mid = t :: ts) (hplus : t.kind ≠ .plus)
    (hloose : Loose ((t :: ts).map Token.kind)) :
    ∃ es s js fs u v e n, ∃ us : List Token,
      contents limits limits.maxDepth limits.maxIterations (State.start a) = ⟨(), es, s⟩ ∧
      contents limits limits.maxDepth limits.maxIterations (State.start b) =
        ⟨(), (State.start b).pending.map .token ++ fs, u⟩ ∧
      contents limits limits.maxDepth limits.maxIterations (State.start c) =
        ⟨(), es ++ (js ++ (us.map .token ++ ({ d with nodes := n } : Shift).elements fs)), v⟩ ∧
      sketches js = [.node .error ((t :: ts).map .leaf)] ∧ e.span = t.span ∧ v.raised = [e] := by
  have hrest : significant (B.rest.map d.token) = (Sketch.leavesAll ys).map d.token := by
    rw [Shift.significant_map_token, B.significant_rest, hleaves']
  have hall := B.significant_body
  rw [hleaves, hmid, hrest] at hall
  have hfront := B.significant_front.trans hleaves
  have hbehind : significant (B.before ++ (mid ++ (B.behind ++ B.rest.map d.token))) =
      t :: (ts ++ (Sketch.leavesAll ys).map d.token) := by
    simp only [significant_append, significant_eq_nil B.isTrivia_before, hmid,
      significant_eq_nil B.isTrivia_behind, hrest, List.nil_append, List.cons_append]
  -- the first text, alone and in front of the junk
  obtain ⟨es, s, s', budget, hrun, hes, hraised, hs, hbudget, halone, hcontents⟩ :=
    contents_shared ha (ready_start hlen) Hx B.body_first B.isTrivia_gap B.body_eq hfront (by
      rw [hbehind]
      exact ends_cons hplus)
  rw [hbehind] at hs
  -- there is a round for each token of the second text, and one for the junk
  have hcount : (Sketch.leavesAll xs).length + (ts.length + 1 + (Sketch.leavesAll ys).length) <
      limits.maxIterations := by
    have hlt := Nat.lt_of_lt_of_le (State.length_kinds_start_lt c) hlen
    rwa [State.kinds_start, kindsOf_eq_map_significant, hall, List.length_map, List.length_append,
      List.length_append, List.length_cons, List.length_map] at hlt
  obtain ⟨budget, rfl⟩ : ∃ n, budget = n + 1 := ⟨budget - 1, by omega⟩
  -- the junk
  obtain ⟨k₁, k₂, ks, hks, hname, -⟩ := Hy.exists_kinds hne
  have hnext : ∃ k ∈ (((Sketch.leavesAll ys).map d.token).map Token.kind).head?,
      k ∈ [TokenKind.blueprintTypeName, .variableName] := by
    rw [List.map_map]
    exact ⟨k₁, congrArg List.head? hks, hname⟩
  have hreading : Reading ⟨limits, tokenize c, fun _ => False⟩ s' :=
    (reading_start (ready_start hlen)).run hrun
  obtain ⟨js, u, e, hjunk, hu, hjs, he, hraised', hcontents'⟩ :=
    contents_loose hreading hs hloose hnext limits.maxDepth budget
  -- the second text
  have hfilled : Sketch.Filled (sketches (es ++ js)) := by
    rw [sketches_append, hes, hjs]
    exact Hx.filled.append (.node (List.cons_ne_nil _ _) (.map_leaf _) .nil)
  have hbody : (TokenStream.ofChars c.toList).body =
      (B.front ++ (B.before ++ mid)) ++ (B.behind ++ B.rest.map d.token) := by
    rw [B.body_eq]
    simp only [List.append_assoc]
  have hfront' : significant (B.front ++ (B.before ++ mid)) =
      Sketch.leavesAll (sketches (es ++ js)) := by
    simp only [significant_append, hfront, significant_eq_nil B.isTrivia_before, hmid,
      List.nil_append, sketches_append, hes, hjs, Sketch.leavesAll_append, Sketch.leavesAll_node,
      Sketch.leavesAll_map_leaf]
  have hrunu := hrun.trans hjunk
  obtain ⟨n, us, p, hbehind⟩ := hrunu.exists_behind B.body_second B.isTrivia_lead B.isTrivia_head
    hbody B.eof_eq B.isTrivia_behind hfilled hfront'
  obtain ⟨q, hstands, -⟩ := hrunu.tiles (State.stands_start c)
  have hlimit : (Sketch.leavesAll ys).length < limits.maxIterations := by omega
  have hrounds : (Sketch.leavesAll ys).length < budget := by omega
  obtain ⟨fs, v, w, hsecond, hresumed, hraised''⟩ := contents_resumed hb Hy hne hleaves'
    (hreading.run hjunk) hstands hbehind hlimit hrounds
  rw [hcontents', hresumed] at hcontents
  refine ⟨es, s, js, fs, v, w, e, n, us, halone, hsecond, hcontents, hjs, he, ?_⟩
  rw [hraised'', hraised', hraised]

end Rule

/-- Loose text on lines of its own between two texts without errors, such that no token but
whitespace goes on past its end: one error, about its first token, and one error node, with its
tokens, between the items of the first text, as they are, and those of the second, shifted. -/
theorem parse_between {a j b c : String} (limits : Limits) (hc : c = a ++ "\n" ++ j ++ "\n" ++ b)
    (ha : (parse a limits).errors = []) (hb : (parse b limits).errors = [])
    (hcomment : ∀ t ∈ (tokenize a).dropLast.getLast?, ¬Lexeme.OpenComment t.chars)
    (hcut : ∀ t ∈ tokenize c, t.kind ≠ .whitespace →
      ¬t.Crosses (a.utf8ByteSize + 1 + j.utf8ByteSize))
    {t : Token} {ts : List Token}
    (hjunk : significant (tokensWithin c (a.utf8ByteSize + 1)
      (a.utf8ByteSize + 1 + j.utf8ByteSize)) = t :: ts)
    (hfirst : t.kind ∉ [TokenKind.objectStart, .equals, .plusEquals, .plus])
    (hloose : Loose ((t :: ts).map Token.kind))
    (hitem : (parse b limits).tree.cursor.childNodes ≠ [])
    (hlen : (tokenize c).length ≤ limits.maxIterations) :
    ∃ (d : Shift) (n : Node) (e : SyntaxError), d.offset = a.utf8ByteSize + 1 + j.utf8ByteSize + 1 ∧
      d.line = (a.toList ++ '\n' :: j.toList).count '\n' + 1 ∧
      (parse c limits).errors = [e] ∧ e.span = t.span ∧
      n.kind = .error ∧ sketches n.children = (t :: ts).map .leaf ∧
      (parse c limits).tree.root.kind = .file ∧
      (parse c limits).tree.cursor.childNodes.map Cursor.node =
        (parse a limits).tree.cursor.childNodes.map Cursor.node ++
          n :: ((parse b limits).tree.cursor.childNodes.map Cursor.node).map d.node := by
  have hready : Ready limits (State.start a) := by
    refine ready_start (Nat.le_trans (length_tokenize_le a (j ++ "\n" ++ b)) ?_)
    have hjoined : a ++ "\n" ++ (j ++ "\n" ++ b) = c := by
      rw [hc]
      simp only [String.append_assoc]
    rwa [hjoined]
  have hready' : Ready limits (State.start b) := by
    refine ready_start (Nat.le_trans (length_tokenize_le_of_cut hc fun t ht hk => ?_) hlen)
    have hsize : Text.byteLength (a ++ "\n" ++ j).toList =
        a.utf8ByteSize + 1 + j.utf8ByteSize := by
      rw [Text.byteLength_toList, String.utf8ByteSize_append, String.utf8ByteSize_append]
      rfl
    rw [hsize]
    exact hcut t ht hk
  obtain ⟨xs, Hx, hleaves, -⟩ := parse_cleanItems hready ha
  obtain ⟨ys, Hy, hleaves', hchildren⟩ := parse_cleanItems hready' hb
  have hne : ys ≠ [] := by
    rintro rfl
    have hnodes := map_filterMap_asNode? (parse b limits).tree.cursor.node.children
    rw [← Cursor.map_node_childNodes] at hnodes
    have hnil := hnodes.trans (congrArg (List.filter _) hchildren)
    exact hitem (List.map_eq_nil_iff.1 (List.map_eq_nil_iff.1 hnil))
  obtain ⟨k₁, k₂, ks, hks, hname, htold⟩ := Hy.exists_kinds hne
  have hbody : (tokenize a).dropLast = (TokenStream.ofChars a.toList).body := List.dropLast_concat
  obtain ⟨d, hoffset, hline, ⟨B⟩⟩ := tokenize_between hc (Hx.closed hleaves (hbody ▸ hcomment))
    hcut (by rw [kindsOf_eq_map_significant, hjunk]; rfl) (fun h => hfirst (List.mem_append_left [_] h))
    hloose (by rw [kindsOf_eq_map_significant, hleaves', hks]) hname htold
  obtain ⟨es, s, js, fs, u, v, e, n, us, hfirst, hsecond, hthird, hjs, he, hraised⟩ :=
    Rule.contents_between B hready hready' hlen Hx hleaves Hy hne hleaves'
      hjunk (fun h => hfirst (by rw [h]; decide)) hloose
  obtain ⟨hnodes, -⟩ := parse_of_contents hfirst
  obtain ⟨hnodes', -⟩ := parse_of_contents hsecond
  obtain ⟨hnodes'', herrors⟩ := parse_of_contents hthird
  obtain ⟨m, hm, hkind, hmchildren⟩ := exists_node_of_sketches hjs
  refine ⟨{ d with nodes := n }, m, e, hoffset, hline, ?_, he, hkind, hmchildren, rfl, ?_⟩
  · rw [herrors, hraised]
    rfl
  · simp only [hnodes, hnodes', hnodes'', List.filterMap_append, filterMap_asNode?_map_token,
      Shift.filterMap_asNode?_elements, hm, List.nil_append]
    rfl

/-- Between two variables, an array that holds a module and a brace that closes nothing. -/
theorem parse_between_brackets :
    (parse "v = [1]" ⟨2, 30⟩).errors = [] ∧ (parse "w = 2" ⟨2, 30⟩).errors = [] ∧
      ∃ (d : Shift) (n : Node) (e : SyntaxError), d.offset = 17 ∧ d.line = 2 ∧
        (parse "v = [1]\n[m \x7b\x7d] \x7d\nw = 2" ⟨2, 30⟩).errors = [e] ∧
        e.span = ⟨8, 9, 2, 1⟩ ∧ n.kind = .error ∧
        sketches n.children =
          (significant (tokensWithin "v = [1]\n[m \x7b\x7d] \x7d\nw = 2" 8 16)).map .leaf ∧
        (parse "v = [1]\n[m \x7b\x7d] \x7d\nw = 2" ⟨2, 30⟩).tree.root.kind = .file ∧
        (parse "v = [1]\n[m \x7b\x7d] \x7d\nw = 2" ⟨2, 30⟩).tree.cursor.childNodes.map
            Cursor.node =
          (parse "v = [1]" ⟨2, 30⟩).tree.cursor.childNodes.map Cursor.node ++
            n :: ((parse "w = 2" ⟨2, 30⟩).tree.cursor.childNodes.map Cursor.node).map d.node := by
  have ha : (parse "v = [1]" ⟨2, 30⟩).errors = [] := by decide +kernel
  have hb : (parse "w = 2" ⟨2, 30⟩).errors = [] := by decide +kernel
  obtain ⟨t, ts, hjunk, hspan⟩ : ∃ t ts, significant
      (tokensWithin "v = [1]\n[m \x7b\x7d] \x7d\nw = 2" 8 16) = t :: ts ∧ t.span = ⟨8, 9, 2, 1⟩ :=
    ⟨_, _, (List.cons_head_tail (by decide +kernel)).symm, by decide +kernel⟩
  have hkinds : (t :: ts).map Token.kind =
      [.arrayStart, .blueprintTypeName, .objectStart, .objectEnd, .arrayEnd, .objectEnd] := by
    rw [← hjunk]
    decide +kernel
  have hloose : Loose ((t :: ts).map Token.kind) := by
    rw [hkinds]
    exact @Loose.group _ _ [_, _, _] [_] rfl
      (.cons (by decide) (@Balanced.group _ _ [] [] rfl .nil .nil)) (.cons (by decide) .nil)
  have hfirst : t.kind ∉ [TokenKind.objectStart, .equals, .plusEquals, .plus] := by
    rw [(List.cons.inj hkinds).1]
    decide
  obtain ⟨d, n, e, hoffset, hline, h⟩ := @parse_between "v = [1]" "[m \x7b\x7d] \x7d" "w = 2"
    "v = [1]\n[m \x7b\x7d] \x7d\nw = 2" ⟨2, 30⟩ (by decide +kernel) ha hb (by decide +kernel)
    (by decide +kernel) t ts hjunk hfirst hloose (by decide +kernel) (by decide +kernel)
  rw [hjunk, ← hspan]
  exact ⟨ha, hb, d, n, e, hoffset.trans (by decide +kernel), hline.trans (by decide +kernel), h⟩

end Blueprint
