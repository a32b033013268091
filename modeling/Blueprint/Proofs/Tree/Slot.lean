import Blueprint.Proofs.Tree.Gap
import Blueprint.Proofs.Tree.Tight

/-!
# Slots in trees with trivia

A slot in the tree of a text is where further entries of a module or of an object can be put, with
the trivia around them. Without trivia it is a gap (`Slot.strip_around`). Trivia in front of all
entries and behind them is no part of the node over them.
-/

namespace Blueprint

open NodeKind Sketch

namespace Word

def isTrivia (w : Word) : Bool := w.kind.isTrivia

def openBrace : Word := ⟨.objectStart, ['{']⟩

def closeBrace : Word := ⟨.objectEnd, ['}']⟩

end Word

/-- A word that is trivia. -/
abbrev Trivia := {w : Word // w.isTrivia = true}

def Trivia.leaf (t : Trivia) : Sketch Word := .leaf t.1

theorem Trivia.stripAll_map_leaf (ts : List Trivia) :
    stripAll Word.isTrivia (ts.map Trivia.leaf) = [] := by
  refine stripAll_eq_nil fun x hx => ?_
  obtain ⟨t, -, rfl⟩ := List.mem_map.1 hx
  exact t.2

/-- The tree of a text with a slot between the entries of a body in it. -/
inductive Slot where
  /-- The body of a module with a name and the trivia behind it, or of an object. The entries, with
  commas and trivia, are on the left and on the right of the slot. -/
  | body (name : Option (List Char × List Trivia)) (left right : List (Sketch Word))
  /-- A node with the slot in a child that has others on its left and on its right. -/
  | child (kind : NodeKind) (left : List (Sketch Word)) (slot : Slot) (right : List (Sketch Word))

namespace Slot

/-- The node over entries, with the trivia in front of them and behind them. -/
def bundle (xs : List (Sketch Word)) : List (Sketch Word) :=
  xs.takeWhile (Sketch.isTrivia Word.isTrivia) ++
    (Gap.members (trimmed (Sketch.isTrivia Word.isTrivia) xs) ++
      (xs.dropWhile (Sketch.isTrivia Word.isTrivia)).rtakeWhile (Sketch.isTrivia Word.isTrivia))

/-- Entries in braces. -/
def braces (entries : List (Sketch Word)) : List (Sketch Word) :=
  .leaf .openBrace :: (bundle entries ++ [.leaf .closeBrace])

/-- The tree with `entries` in the slot. -/
def around (entries : List (Sketch Word)) : Slot → Sketch Word
  | body none left right => .node .object (braces (left ++ entries ++ right))
  | body (some (n, ts)) left right =>
    .node .blueprint (.node .blueprintType [.leaf ⟨.blueprintTypeName, n⟩] ::
      (ts.map Trivia.leaf ++ braces (left ++ entries ++ right)))
  | child k left slot right => .node k (left ++ slot.around entries :: right)

/-- The words on the left of the slot. -/
def before : Slot → List Word
  | body none left _ => .openBrace :: leavesAll left
  | body (some (n, ts)) left _ =>
    ⟨.blueprintTypeName, n⟩ :: (ts.map Subtype.val ++ .openBrace :: leavesAll left)
  | child _ left slot _ => leavesAll left ++ slot.before

/-- The words on the right of the slot. -/
def after : Slot → List Word
  | body _ _ right => leavesAll right ++ [.closeBrace]
  | child _ _ slot right => slot.after ++ leavesAll right

/-- The slot without trivia. -/
def gap : Slot → Gap Word
  | body name left right =>
    .body (name.map fun n => ⟨.blueprintTypeName, n.1⟩) .openBrace
      (stripAll Word.isTrivia left) (stripAll Word.isTrivia right) .closeBrace
  | child k left slot right =>
    .child k (stripAll Word.isTrivia left) slot.gap (stripAll Word.isTrivia right)

/-- What is trivia at both ends of entries stays outside of the node over them. -/
theorem exists_bundle (xs : List (Sketch Word)) : ∃ ts core us, xs = ts ++ (core ++ us) ∧
    bundle xs = ts ++ (Gap.members core ++ us) ∧
    (∀ x ∈ ts, x.isTrivia Word.isTrivia = true) ∧ (∀ x ∈ us, x.isTrivia Word.isTrivia = true) ∧
    (∀ x ∈ core.head?, x.isTrivia Word.isTrivia = false) ∧
    ∀ x ∈ core.getLast?, x.isTrivia Word.isTrivia = false := by
  exact ⟨_, _, _, (takeWhile_append_trimmed _ xs).symm, rfl, fun x hx => List.mem_takeWhile_imp hx,
    fun x hx => List.mem_rtakeWhile_imp hx, eq_false_of_mem_head?_trimmed _ xs,
    eq_false_of_mem_getLast?_trimmed _ xs⟩

theorem leavesAll_bundle (xs : List (Sketch Word)) : leavesAll (bundle xs) = leavesAll xs := by
  obtain ⟨ts, core, us, hxs, hbundle, -⟩ := exists_bundle xs
  rw [hbundle, hxs]
  simp only [leavesAll_append, Gap.leavesAll_members]

theorem leavesAll_braces (xs : List (Sketch Word)) :
    leavesAll (braces xs) = .openBrace :: (leavesAll xs ++ [.closeBrace]) := by
  rw [braces, leavesAll, leavesAll_append, leavesAll_bundle]
  rfl

theorem leavesAll_map_trivia (ts : List Trivia) :
    leavesAll (ts.map Trivia.leaf) = ts.map Subtype.val := by
  have h : ts.map Trivia.leaf = (ts.map Subtype.val).map .leaf := (List.map_map ..).symm
  rw [h, leavesAll_map_leaf]

theorem leaves_around (p : Slot) (es : List (Sketch Word)) :
    (p.around es).leaves = p.before ++ leavesAll es ++ p.after := by
  induction p with
  | body n left right =>
    cases n with
    | none =>
      rw [around, leaves, leavesAll_braces, before, after]
      simp only [leavesAll_append, List.cons_append, List.append_assoc]
    | some n =>
      rw [around, leaves, leavesAll, leavesAll_append, leavesAll_map_trivia, leavesAll_braces, before,
        after]
      simp only [leavesAll_append, List.cons_append, List.append_assoc, leaves, leavesAll,
        List.nil_append]
  | child k left p right ih =>
    rw [around, leaves, leavesAll_append, leavesAll, ih, before, after]
    simp only [List.append_assoc]

/-! ### Without trivia -/

theorem stripAll_bundle (xs : List (Sketch Word)) :
    stripAll Word.isTrivia (bundle xs) = Gap.members (stripAll Word.isTrivia xs) := by
  obtain ⟨ts, core, us, hxs, hbundle, hts, hus, hhead, -⟩ := exists_bundle xs
  rw [hbundle, hxs]
  simp only [stripAll_append, stripAll_eq_nil hts, stripAll_eq_nil hus, List.nil_append,
    List.append_nil]
  cases core with
  | nil => rfl
  | cons x core =>
    have hne := strip_ne_nil (hhead x rfl)
    cases hx : x.strip Word.isTrivia with
    | nil => exact absurd hx hne
    | cons y ys =>
      rw [Gap.members, stripAll, strip, stripAll, stripAll, hx]
      rfl

theorem stripAll_braces (xs : List (Sketch Word)) :
    stripAll Word.isTrivia (braces xs) =
      Gap.braces .openBrace (stripAll Word.isTrivia xs) .closeBrace := by
  rw [braces, stripAll, stripAll_append, stripAll_bundle]
  rfl

/-- Without trivia a slot is a gap. -/
theorem strip_around (p : Slot) (es : List (Sketch Word)) :
    (p.around es).strip Word.isTrivia = [p.gap.around (stripAll Word.isTrivia es)] := by
  induction p with
  | body n left right =>
    cases n with
    | none =>
      rw [around, strip, stripAll_braces, stripAll_append, stripAll_append]
      rfl
    | some n =>
      rw [around, strip, stripAll, stripAll_append, Trivia.stripAll_map_leaf, stripAll_braces,
        stripAll_append, stripAll_append]
      rfl
  | child k left p right ih =>
    rw [around, strip, stripAll_append, stripAll, ih]
    rfl

theorem before_gap (p : Slot) : p.gap.before = p.before.filter (!·.isTrivia) := by
  induction p with
  | body n left right =>
    cases n with
    | none =>
      rw [gap, Gap.before, before, leavesAll_stripAll]
      rfl
    | some n =>
      have htrivia : (n.2.map Subtype.val).filter (!·.isTrivia) = [] := by
        refine List.filter_eq_nil_iff.2 fun w hw => ?_
        obtain ⟨t, -, rfl⟩ := List.mem_map.1 hw
        rw [t.2]
        exact Bool.false_ne_true
      rw [gap, Gap.before, before, leavesAll_stripAll, List.filter_cons_of_pos rfl,
        List.filter_append, htrivia]
      rfl
  | child k left p right ih =>
    rw [gap, Gap.before, before, List.filter_append, leavesAll_stripAll, ih]

theorem after_gap (p : Slot) : p.gap.after = p.after.filter (!·.isTrivia) := by
  induction p with
  | body n left right =>
    rw [gap, Gap.after, after, List.filter_append, leavesAll_stripAll]
    rfl
  | child k left p right ih =>
    rw [gap, Gap.after, after, List.filter_append, leavesAll_stripAll, ih]

/-! ### Tight trees -/

variable {p : Slot} {es mid xs left right : List (Sketch Word)}

theorem tight_bundle_iff : Tight Word.isTrivia (bundle xs) ↔ Tight Word.isTrivia xs := by
  obtain ⟨ts, core, us, rfl, hbundle, -, -, hhead, hlast⟩ := exists_bundle xs
  rw [hbundle]
  constructor
  · intro H
    obtain ⟨hts, hmembers, hus⟩ := H.of_append.imp_right Tight.of_append
    refine hts.append (.append ?_ hus)
    cases core with
    | nil => exact .nil
    | cons x core =>
      cases hmembers with | node _ _ hcore _ =>
      exact hcore
  · intro H
    obtain ⟨hts, hcore, hus⟩ := H.of_append.imp_right Tight.of_append
    refine hts.append (.append ?_ hus)
    cases core with
    | nil => exact .nil
    | cons x core =>
      obtain ⟨hfirst, hlast⟩ := hcore.ends (List.cons_ne_nil _ _) hhead hlast
      exact .node hfirst hlast hcore .nil

/-- Tight entries in a slot are tight with those on both sides of it. -/
theorem tight_braces (H : Tight Word.isTrivia (braces (left ++ mid ++ right)))
    (hes : Tight Word.isTrivia es) : Tight Word.isTrivia (braces (left ++ es ++ right)) := by
  cases H with | leaf H =>
  obtain ⟨hleft, hright⟩ := (tight_bundle_iff.1 H.of_append.1).of_append
  exact .leaf ((tight_bundle_iff.2 ((hleft.of_append.1.append hes).append hright)).append
    (.leaf .nil))

theorem before_ne_nil (p : Slot) : p.before ≠ [] := by
  induction p with
  | body n => cases n <;> nofun
  | child k left p right ih => exact List.append_ne_nil_of_right_ne_nil _ ih

theorem after_ne_nil (p : Slot) : p.after ≠ [] := by
  induction p with
  | body n => exact List.append_ne_nil_of_right_ne_nil _ (List.cons_ne_nil _ _)
  | child k left p right ih => exact List.append_ne_nil_of_left_ne_nil ih _

/-- The first and the last leaf of a tree do not depend on what is in the slot. -/
theorem head?_leaves_around (p : Slot) (es : List (Sketch Word)) :
    (p.around es).leaves.head? = p.before.head? ∧
    (p.around es).leaves.getLast? = p.after.getLast? := by
  rw [leaves_around]
  refine ⟨?_, List.getLast?_append_of_ne_nil _ p.after_ne_nil⟩
  rw [List.append_assoc, List.head?_append_of_ne_nil _ p.before_ne_nil]

theorem tight_node {k : NodeKind} {cs ds : List (Sketch Word)} (hcs : p.around mid = .node k cs)
    (hds : p.around es = .node k ds) (H : Tight Word.isTrivia [p.around mid])
    (Hd : Tight Word.isTrivia ds) : Tight Word.isTrivia [p.around es] := by
  obtain ⟨hhead, hlast⟩ := head?_leaves_around p mid
  obtain ⟨hhead', hlast'⟩ := head?_leaves_around p es
  rw [hcs] at H hhead hlast
  rw [hds] at hhead' hlast' ⊢
  rw [leaves] at hhead hlast hhead' hlast'
  cases H with | node hfirst hstop _ _ =>
  rw [hhead, ← hhead'] at hfirst
  rw [hlast, ← hlast'] at hstop
  exact .node hfirst hstop Hd .nil

/-- Tight entries in a slot make a tight tree. -/
theorem tight_around (H : Tight Word.isTrivia [p.around mid]) (hes : Tight Word.isTrivia es) :
    Tight Word.isTrivia [p.around es] := by
  induction p with
  | body n left right =>
    cases n with
    | none =>
      refine tight_node rfl rfl H ?_
      cases H with | node _ _ Hc _ =>
      exact tight_braces Hc hes
    | some n =>
      refine tight_node rfl rfl H ?_
      cases H with | node _ _ Hc _ =>
      cases Hc with | node hfirst hlast hname Hc =>
      exact .node hfirst hlast hname (Hc.of_append.1.append (tight_braces Hc.of_append.2 hes))
  | child k left p right ih =>
    refine tight_node rfl rfl H ?_
    cases H with | node _ _ Hc _ =>
    obtain ⟨hleft, hright⟩ := Hc.of_append
    rw [← List.singleton_append] at hright ⊢
    exact hleft.append ((ih hright.of_append.1).append hright.of_append.2)

/-- A file with entries in a slot is known by its words and by what it is without trivia. -/
theorem eq_around {xs ys : List (Sketch Word)} (hxs : p.around mid = .node .file xs)
    (Hxs : Tight Word.isTrivia xs) (Hys : Tight Word.isTrivia ys) (hes : Tight Word.isTrivia es)
    (hleaves : (Sketch.node .file ys).leaves = (p.around es).leaves)
    (hstrip : (Sketch.node .file ys).strip Word.isTrivia = (p.around es).strip Word.isTrivia) :
    .node .file ys = p.around es := by
  cases p with
  | body n => cases n <;> cases hxs
  | child k left p right =>
    obtain ⟨rfl, rfl⟩ := Sketch.node.inj hxs
    obtain ⟨hleft, hright⟩ := Hxs.of_append
    rw [← List.singleton_append] at hright
    have H : Tight Word.isTrivia (left ++ ([p.around es] ++ right)) :=
      hleft.append ((tight_around hright.of_append.1 hes).append hright.of_append.2)
    exact congrArg _ (Hys.eq_of_strip H hleaves (Sketch.node.inj (List.cons.inj hstrip).1).2)

end Slot

/-! ### Trivia put in -/

/-- Trivia can be put into a forest without it, so that it is tight. -/
theorem Sketch.exists_tight {α : Type} {trivia : α → Bool} {ys : List (Sketch α)} (H : Filled ys)
    {as : List α} (h : as.filter (!trivia ·) = leavesAll ys) :
    ∃ xs, stripAll trivia xs = ys ∧ leavesAll xs = as ∧ Tight trivia xs := by
  have htrivia : ∀ {ts : List α}, (∀ t ∈ ts, trivia t = true) →
      stripAll trivia (ts.map .leaf) = [] := fun hts => stripAll_eq_nil fun x hx => by
    obtain ⟨t, ht, rfl⟩ := List.mem_map.1 hx
    exact hts t ht
  induction ys using forest_induction generalizing as with
  | nil =>
    refine ⟨as.map .leaf, htrivia fun t ht => ?_, leavesAll_map_leaf as, .map_leaf as⟩
    simpa using List.filter_eq_nil_iff.1 h t ht
  | leaf b ys ih =>
    cases H with | leaf H =>
    obtain ⟨ts, as, rfl, hts, hb, hrest⟩ := List.filter_eq_cons_iff.1 h
    obtain ⟨xs, rfl, rfl, Hxs⟩ := ih H hrest
    refine ⟨ts.map .leaf ++ .leaf b :: xs, ?_, ?_, (Tight.map_leaf ts).append (.leaf Hxs)⟩
    · rw [stripAll_append, htrivia (by simpa using hts), stripAll, strip, if_neg (by simpa using hb)]
      rfl
    · rw [leavesAll_append, leavesAll_map_leaf]
      rfl
  | node k cs ys ihc ih =>
    cases H with | node hne hcs H =>
    obtain ⟨as, bs, rfl, hc, hrest⟩ := List.filter_eq_append_iff.1 h
    have hsplit := takeWhile_append_trimmed trivia as
    have hts : ∀ t ∈ as.takeWhile trivia, trivia t = true := fun t ht => List.mem_takeWhile_imp ht
    have hus : ∀ t ∈ (as.dropWhile trivia).rtakeWhile trivia, trivia t = true :=
      fun t ht => List.mem_rtakeWhile_imp ht
    have hfirst := eq_false_of_mem_head?_trimmed trivia as
    have hlast := eq_false_of_mem_getLast?_trimmed trivia as
    generalize as.takeWhile trivia = ts, trimmed trivia as = core,
      (as.dropWhile trivia).rtakeWhile trivia = us at *
    subst hsplit
    have hnone : ∀ {ts : List α}, (∀ t ∈ ts, trivia t = true) → ts.filter (!trivia ·) = [] :=
      fun h => List.filter_eq_nil_iff.2 fun t ht => by simp [h t ht]
    rw [List.filter_append, List.filter_append, hnone hts, hnone hus, List.nil_append,
      List.append_nil, leaves] at hc
    obtain ⟨ds, rfl, rfl, Hds⟩ := ihc hcs hc
    obtain ⟨xs, rfl, hleaves, Hxs⟩ := ih H (show (us ++ bs).filter (!trivia ·) = _ by
      rw [List.filter_append, hnone hus, hrest]; rfl)
    have hds : leavesAll ds ≠ [] := by
      intro hnil
      rw [leavesAll_stripAll, hnil] at hne
      exact hne rfl
    refine ⟨ts.map .leaf ++ .node k ds :: xs, ?_, ?_, (Tight.map_leaf ts).append (.node ?_ ?_ Hds Hxs)⟩
    · rw [stripAll_append, htrivia hts]
      rfl
    · rw [leavesAll_append, leavesAll_map_leaf, leavesAll, leaves, hleaves]
      simp only [List.append_assoc]
    · exact ⟨_, List.head?_eq_some_head hds, hfirst _ (List.head?_eq_some_head hds)⟩
    · exact ⟨_, List.getLast?_eq_some_getLast hds, hlast _ (List.getLast?_eq_some_getLast hds)⟩

end Blueprint
