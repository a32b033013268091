import Blueprint.Proofs.Grammar.Parses.File
import Blueprint.Proofs.Grammar.Places
import Blueprint.Proofs.Tree.Lossless
import Blueprint.Proofs.Tree.Truncate

/-!
# What the depth limit does

A text that has no errors at some depth limit is parsed at any other limit to the same tree with an
error node in place of each outermost construct that lies too deep, and with one error about each of
these (`parse_truncate`).
-/

namespace Blueprint

open Element NodeKind Token

/-! ### Runs emit snug forests -/

namespace State

variable {s : State}

/-- In front of a token that is not trivia no trivia is left over. -/
theorem WF.isTrivia_head (H : s.WF) (hpending : s.pending = []) :
    ∀ t ∈ s.unattached.head?, t.isTrivia = false := by
  intro t ht
  rw [unattached, hpending, List.nil_append] at ht
  cases hr : s.rest with
  | nil =>
    rw [hr] at ht
    cases ht
    exact H.isTrivia_eof
  | cons u us =>
    rw [hr] at ht
    cases ht
    exact H.isTrivia_current _ (by rw [hr]; rfl)

end State

namespace Run

variable {s t : State} {es : List Element}

/-- The last token of a run that consumes tokens is no trivia, and neither is the first one of a
node. -/
theorem snug (H : Run s es t) (hs : s.WF) (hfilled : Sketch.Filled (sketches es)) :
    Snug es ∧ ∀ u ∈ (leavesAll es).getLast?, u.isTrivia = false := by
  induction H with
  | refl | raise => exact ⟨.nil, nofun⟩
  | @trans _ _ _ es fs h _ ih₁ ih₂ =>
    rw [sketches_append] at hfilled
    obtain ⟨h₁, hlast₁⟩ := ih₁ hs hfilled.of_append.1
    obtain ⟨h₂, hlast₂⟩ := ih₂ (h.wf hs) hfilled.of_append.2
    refine ⟨h₁.append h₂, fun u hu => ?_⟩
    rw [leavesAll_append, List.getLast?_append] at hu
    cases hfs : (leavesAll fs).getLast? with
    | none =>
      rw [hfs, Option.none_or] at hu
      exact hlast₁ u hu
    | some v =>
      rw [hfs, Option.some_or] at hu
      exact hlast₂ u (hfs.trans hu)
  | @bump s t ts h =>
    refine ⟨(Snug.map_token _).append (.token .nil), fun u hu => ?_⟩
    rw [leavesAll_append, List.getLast?_append] at hu
    cases hu
    exact hs.isTrivia_current t (by rw [h]; rfl)
  | @node s t es kind h ih =>
    rw [sketches_pending hs] at hfilled
    cases hfilled with
    | node hne hes =>
      obtain ⟨hsnug, hlast⟩ := ih hs.opened hes
      have hleaves : leavesAll es ≠ [] := by
        rintro hnil
        rw [leavesAll_sketches, hnil] at hne
        exact hne rfl
      have hfirst : ∃ u ∈ (leavesAll es).head?, u.isTrivia = false := by
        refine ⟨_, List.head?_eq_some_head hleaves, hs.opened.isTrivia_head rfl _ ?_⟩
        rw [← h.leavesAll_append_unattached, List.head?_append_of_ne_nil _ hleaves]
        exact List.head?_eq_some_head hleaves
      have hstop := List.getLast?_eq_some_getLast hleaves
      refine ⟨(Snug.map_token _).append (.node hfirst ⟨_, hstop, hlast _ hstop⟩ hsnug .nil), ?_⟩
      intro u hu
      rw [leavesAll_append, leavesAll, leaves, leavesAll, List.append_nil,
        List.getLast?_append_of_ne_nil _ hleaves] at hu
      exact hlast u hu

end Run

/-! ### Files -/

/-- What the root holds: all tokens, from the start of the text on, and snug when every node has a
token. -/
theorem exists_root (source : String) (limits : Limits) :
    ∃ es q, (parse source limits).tree.root = ⟨0, .file, Span.between .first q, es⟩ ∧
      Tiles .first es q ∧ leavesAll es = tokenize source ∧
        (Sketch.Filled (sketches es) → Snug es) := by
  obtain ⟨es, t, hrun, -, hbody⟩ :=
    Rule.exists_run_fileBody limits limits.maxDepth (State.wf_start source)
  obtain ⟨q, hq, hes⟩ := hrun.tiles (State.stands_start source)
  obtain ⟨r, hr⟩ := hq.tiles
  have htiles : Tiles .first (es ++ t.unattached.map .token) r := hes.append hr
  refine ⟨es ++ t.unattached.map .token, r, ?_, htiles, ?_, fun hfilled => ?_⟩
  · have hne : es ++ t.unattached.map .token ≠ [] := by
      refine List.append_ne_nil_of_right_ne_nil _ (mt List.map_eq_nil_iff.1 ?_)
      exact List.append_ne_nil_of_right_ne_nil _ nofun
    have hspan : State.nodeSpan { t with pending := [] } (es ++ t.unattached.map .token) =
        Span.between .first r := by
      rw [State.nodeSpan, htiles.spanOver_eq hne, Option.getD_some]
    have hroot : (parse source limits).tree.root = (fun r : Reply Unit =>
        (⟨0, .file, r.state.nodeSpan r.emitted, r.emitted⟩ : Node))
          (Rule.fileBody limits limits.maxDepth (State.start source)) := rfl
    rw [hroot, hbody, ← hspan]
  · rw [leavesAll_append, leavesAll_map_token, hrun.leavesAll_append_unattached]
    exact State.unattached_ofStream _
  · rw [sketches_append] at hfilled
    exact (hrun.snug (State.wf_start source) hfilled.of_append.1).1.append (.map_token _)

/-- A tree is what any tree of the text with its sketch is, but for the numbers of nodes, when every
node has a token. -/
theorem parse_unnumbered_eq {source : String} {limits : Limits} {es : List Element}
    {q : Position} (H : Snug es) (T : Tiles .first es q)
    (hleaves : leavesAll es = tokenize source)
    (hsketches : sketches (parse source limits).tree.root.children = sketches es)
    (hfilled : Sketch.Filled (sketches es)) :
    (parse source limits).tree.root.toElement.unnumbered =
      .node 0 .file (Span.between .first q) (unnumberedAll es) := by
  obtain ⟨fs, r, hroot, T', hleaves', hsnug⟩ := exists_root source limits
  rw [hroot] at hsketches ⊢
  change sketches fs = sketches es at hsketches
  have H' := hsnug (hsketches ▸ hfilled)
  have hr : r = q := by rw [T.eq_after, T'.eq_after, hleaves, hleaves']
  rw [Node.toElement, unnumbered, hr,
    H'.unnumberedAll_eq H T' T (hleaves'.trans hleaves.symm) hsketches]

/-- Errors that start one after the other all stay on record. -/
theorem SyntaxError.recorded_eq_self {es : List SyntaxError}
    (h : es.Pairwise (fun a b => b.span.start < a.span.start)) : recorded es = es := by
  induction h with
  | nil => rfl
  | @cons e es hlt _ ih =>
    have hany : es.head?.any (·.span.start == e.span.start) = false := by
      cases es with
      | nil => rfl
      | cons a es => exact beq_eq_false_iff_ne.2 (Nat.ne_of_lt (hlt a (.head _)))
    simp only [recorded, ih, hany, Bool.false_eq_true, if_false]

/-- The tokens of a text start one after the other. -/
theorem TokenStream.pairwise_start (source : String) :
    (TokenStream.ofChars source.toList).body.Pairwise (·.span.start < ·.span.start) := by
  refine (TokenStream.tiles_place 0 .first .empty _).pairwise_start fun t ht => ?_
  obtain ⟨-, -, -, hne, -⟩ :=
    @TokenStream.standsIn_of_mem_place 0 .empty [] source.toList t ht
  exact hne

/-- Where nothing is bad there is nothing to show of it. -/
theorem Script.sound_of_false (limits : Limits) (ts : List Token) :
    (⟨limits, ts, fun _ => False⟩ : Script).Sound where
  start _ h := h.elim
  start_elements _ h := h.elim
  balanced _ h := h.elim
  parses _ h := h.elim
  parses_elements h := h.elim

/-- What the items of a text without errors are: a regular forest that makes up a file and lies within
the depth limit. -/
structure CleanItems (depth : Nat) (xs : List (Sketch Token)) : Prop where
  regular : Regular Token.kind (fun _ => False) xs
  production : Sketch.symbols Token.kind xs ∈ NodeKind.file.production.matches'
  within : Within Token.kind depth (fun _ => False) [.file] xs 0

namespace CleanItems

variable {depth : Nat} {xs : List (Sketch Token)} (H : CleanItems depth xs)
include H

theorem filled : Sketch.Filled xs := H.regular.filled fun _ h => h.elim

/-- The depth limit replaces none of the items, and no error is raised. -/
theorem eq_of_cut {ys : List (Sketch Token)} {errors : List SyntaxError}
    (hcut : Cut depth (fun _ => False) [.file] xs ys errors) : ys = xs ∧ errors = [] := by
  obtain ⟨rfl, herrors⟩ := hcut.eq_of_within H.within
  exact ⟨rfl, List.length_eq_zero_iff.1 herrors⟩

end CleanItems

/-- The tree of a text without errors has the items of one. -/
theorem parse_cleanItems {source : String} {limits : Limits}
    (hready : Ready limits (State.start source)) (hclean : (parse source limits).errors = []) :
    ∃ xs, CleanItems limits.maxDepth xs ∧
      significant (TokenStream.ofChars source.toList).body = Sketch.leavesAll xs ∧
      sketches (parse source limits).tree.root.children =
        xs ++ [.leaf (TokenStream.ofChars source.toList).eof] := by
  obtain ⟨xs, H, hxs, hleaves, hchildren⟩ := parse_regular hready hclean
  obtain ⟨ys, errors, hcut, -, herrors⟩ :=
    parse_cut (Script.sound_of_false limits (tokenize source)) hready H hxs hleaves
  have herrors : errors = [] := by
    rwa [herrors, List.reverse_eq_nil_iff, SyntaxError.recorded_eq_nil_iff,
      List.reverse_eq_nil_iff] at hclean
  subst herrors
  exact ⟨xs, ⟨H, hxs, hcut.within⟩, hleaves, hchildren⟩

/-- When a text has no errors at some depth limit, its tree at any limit is that tree with an error
node in place of each outermost construct that lies too deep, and there is one error for each of
these, about its first token. -/
theorem parse_truncate (source : String) (whole depth iterations : Nat)
    (hlen : (tokenize source).length ≤ iterations)
    (hclean : (parse source ⟨whole, iterations⟩).errors = []) :
    (parse source ⟨depth, iterations⟩).tree.root.toElement.unnumbered =
        ((parse source ⟨whole, iterations⟩).tree.root.toElement.truncate depth []).unnumbered ∧
      List.Forall₂ (fun e c => ∃ t ∈ c.leaves.head?, e = ⟨.nestingTooDeep depth, t.span⟩)
        (parse source ⟨depth, iterations⟩).errors
        ((parse source ⟨whole, iterations⟩).tree.root.toElement.excess depth []) := by
  obtain ⟨xs, Hxs, hxs, hleaves, hwhole⟩ := parse_regular (ready_start hlen) hclean
  obtain ⟨ys, errors, hcut, hys, herrors⟩ :=
    parse_cut (Script.sound_of_false ⟨depth, iterations⟩ (tokenize source)) (ready_start hlen)
      Hxs hxs hleaves
  obtain ⟨es, q, hroot, T, htokens, hsnug⟩ := exists_root source ⟨whole, iterations⟩
  rw [hroot] at hwhole ⊢
  change sketches es = _ at hwhole
  have hfilled : Sketch.Filled (sketches es) := by
    rw [hwhole]
    exact (Hxs.append (.leaf .nil)).filled nofun
  have hcut' : Cut depth (fun _ => False) [.file] (sketches es)
      (ys ++ [.leaf (TokenStream.ofChars source.toList).eof]) errors := by
    rw [hwhole, ← List.append_nil errors]
    exact hcut.append (.leaf .nil)
  obtain ⟨htruncated, hexcess⟩ := hcut'.sketches_truncateAll (hsnug hfilled)
  have hfile : NodeKind.file.reach [] (symbols es) ≤ depth := Nat.zero_le _
  have htruncate : (Element.node 0 .file (Span.between .first q) es).truncate depth [] =
      .node 0 .file (Span.between .first q) (truncateAll depth [.file] es) := by
    rw [truncate, if_pos hfile]
  have hexcess' : (Element.node 0 .file (Span.between .first q) es).excess depth [] =
      excessAll depth [.file] es := by
    rw [excess, if_pos hfile]
  have hstarts : ((Sketch.leavesAll xs).map Token.span).Pairwise (·.start < ·.start) :=
    hleaves ▸ List.pairwise_map.2 ((TokenStream.pairwise_start source).filter _)
  have hsorted : (errors.map SyntaxError.span).Pairwise (·.start < ·.start) :=
    hstarts.sublist hcut.spans_sublist
  have hkept : SyntaxError.recorded errors.reverse = errors.reverse := by
    rw [List.pairwise_map] at hsorted
    exact SyntaxError.recorded_eq_self (List.pairwise_reverse.2 hsorted)
  change _ = ((Element.node 0 .file (Span.between .first q) es).truncate depth []).unnumbered ∧
    List.Forall₂ _ _ ((Element.node 0 .file (Span.between .first q) es).excess depth [])
  refine ⟨?_, ?_⟩
  · rw [htruncate, unnumbered]
    refine parse_unnumbered_eq ((hsnug hfilled).truncateAll _) (T.truncateAll _) ?_ ?_ ?_
    · rw [leavesAll_truncateAll, htokens]
    · rw [hys, htruncated]
    · rw [htruncated]
      exact hcut'.filled hfilled
  · rw [hexcess', herrors, hkept, List.reverse_reverse]
    exact hexcess

/-- With one level left, an array in an object and the end of a chain of references are cut out. -/
theorem parse_truncate_nested :
    (parse "m { a: { b: [1] }, c: v + w + x }" ⟨1, 50⟩).tree.root.toElement.unnumbered =
        ((parse "m { a: { b: [1] }, c: v + w + x }" ⟨9, 50⟩).tree.root.toElement.truncate
          1 []).unnumbered ∧
      List.Forall₂ (fun e c => ∃ t ∈ c.leaves.head?, e = ⟨.nestingTooDeep 1, t.span⟩)
        (parse "m { a: { b: [1] }, c: v + w + x }" ⟨1, 50⟩).errors
        ((parse "m { a: { b: [1] }, c: v + w + x }" ⟨9, 50⟩).tree.root.toElement.excess
          1 []) :=
  parse_truncate "m { a: { b: [1] }, c: v + w + x }" 9 1 50 (by decide +kernel)
    (by decide +kernel)

end Blueprint
