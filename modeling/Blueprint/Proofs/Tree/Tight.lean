import Mathlib.Data.List.DropRight
import Blueprint.Proofs.Tree.Sketch

/-!
# Trees with trivia in them

Some of the leaves of a tree are trivia. In a tight forest no node starts or stops with trivia, so
trivia has one place to be: tight forests over the same leaves that are the same without trivia are
the same (`Tight.eq_of_strip`).
-/

namespace Blueprint

/-! ### Both ends of a list -/

section

variable {α : Type} (p : α → Bool) (as : List α)

/-- The list without what satisfies `p` at both ends. -/
def trimmed : List α := (as.dropWhile p).rdropWhile p

theorem takeWhile_append_trimmed :
    as.takeWhile p ++ (trimmed p as ++ (as.dropWhile p).rtakeWhile p) = as := by
  rw [trimmed, List.rdropWhile_append_rtakeWhile, List.takeWhile_append_dropWhile]

theorem eq_false_of_mem_head?_trimmed : ∀ a ∈ (trimmed p as).head?, p a = false := by
  intro a ha
  have hrest := List.mem_head?_append_of_mem_head? (t := (as.dropWhile p).rtakeWhile p) ha
  rw [trimmed, List.rdropWhile_append_rtakeWhile] at hrest
  have hnot := List.head?_dropWhile_not p as
  rw [hrest] at hnot
  exact hnot

theorem eq_false_of_mem_getLast?_trimmed : ∀ a ∈ (trimmed p as).getLast?, p a = false := by
  intro a ha
  have hne : trimmed p as ≠ [] := List.ne_nil_of_mem (List.mem_of_getLast? ha)
  have hlast := List.rdropWhile_last_not p _ hne
  rw [List.getLast?_eq_some_getLast hne] at ha
  cases ha
  exact Bool.eq_false_iff.2 hlast

end

namespace Sketch

section

variable {α β : Type} (trivia : α → Bool)

mutual
/-- The tree without trivia; trivia is nothing. -/
def strip : Sketch α → List (Sketch α)
  | leaf a => if trivia a then [] else [leaf a]
  | node k cs => [node k (stripAll cs)]

def stripAll : List (Sketch α) → List (Sketch α)
  | [] => []
  | x :: xs => x.strip ++ stripAll xs
end

/-- A leaf that is trivia. -/
def isTrivia : Sketch α → Bool
  | leaf a => trivia a
  | node .. => false

/-- Every node has a leaf that is no trivia as its first one, and one as its last. -/
inductive Tight : List (Sketch α) → Prop
  | nil : Tight []
  | leaf {a : α} {xs : List (Sketch α)} : Tight xs → Tight (.leaf a :: xs)
  | node {k : NodeKind} {cs xs : List (Sketch α)} :
    (∃ a ∈ (leavesAll cs).head?, trivia a = false) →
    (∃ a ∈ (leavesAll cs).getLast?, trivia a = false) → Tight cs → Tight xs →
    Tight (.node k cs :: xs)

end

variable {α β : Type} {trivia : α → Bool} {xs ys cs : List (Sketch α)} {as bs us vs : List α}

@[simp] theorem stripAll_append :
    stripAll trivia (xs ++ ys) = stripAll trivia xs ++ stripAll trivia ys := by
  induction xs with
  | nil => rfl
  | cons x xs ih => simp only [List.cons_append, stripAll, ih, List.append_assoc]

theorem strip_of_isTrivia {x : Sketch α} (h : x.isTrivia trivia = true) : x.strip trivia = [] := by
  cases x with
  | leaf a => exact if_pos h
  | node => cases h

theorem stripAll_eq_nil (h : ∀ x ∈ xs, x.isTrivia trivia = true) : stripAll trivia xs = [] := by
  induction xs with
  | nil => rfl
  | cons x xs ih =>
    rw [stripAll, strip_of_isTrivia (h x (.head _)), ih fun y hy => h y (.tail _ hy)]
    rfl

theorem strip_ne_nil {x : Sketch α} (h : x.isTrivia trivia = false) : x.strip trivia ≠ [] := by
  cases x with
  | leaf a =>
    have ha : trivia a = false := h
    simp only [strip, ha, Bool.false_eq_true, if_false, ne_eq, List.cons_ne_nil, not_false_eq_true]
  | node => nofun

/-- What is left are the leaves that are no trivia. -/
theorem leavesAll_stripAll (xs : List (Sketch α)) :
    leavesAll (stripAll trivia xs) = (leavesAll xs).filter (!trivia ·) := by
  induction xs using forest_induction with
  | nil => rfl
  | leaf a xs ih =>
    rw [stripAll, leavesAll_append, ih, leavesAll, leaves, List.filter_append]
    cases h : trivia a with
    | true => simp only [strip, h, if_true, leavesAll, List.filter_singleton, Bool.not_true,
        Bool.cond_false]
    | false => simp only [strip, h, Bool.false_eq_true, if_false, leavesAll, leaves,
        List.filter_singleton, Bool.not_false, Bool.cond_true, List.append_nil]
  | node k cs xs ihc ih =>
    rw [stripAll, leavesAll_append, ih, leavesAll, leaves, List.filter_append, strip,
      leavesAll_node, ihc]

theorem stripAll_mapAll (f : β → α) (xs : List (Sketch β)) :
    stripAll trivia (mapAll f xs) = mapAll f (stripAll (trivia ∘ f) xs) := by
  induction xs using forest_induction with
  | nil => rfl
  | leaf a xs ih =>
    rw [mapAll, stripAll, stripAll, mapAll_append, ih, Sketch.map, strip, strip, Function.comp]
    split <;> rfl
  | node k cs xs ihc ih =>
    rw [mapAll, stripAll, stripAll, mapAll_append, ih, Sketch.map, strip, strip, ihc]
    rfl

/-- A beginning that stops with no trivia is part of any other one that differs from it in trivia at
most. -/
theorem isPrefix_of_filter (h : as ++ us = bs ++ vs)
    (hfilter : as.filter (!trivia ·) = bs.filter (!trivia ·))
    (hlast : ∀ t ∈ as.getLast?, trivia t = false) : as <+: bs := by
  rcases List.append_eq_append_iff.1 h with ⟨ds, rfl, -⟩ | ⟨ds, rfl, -⟩
  · exact List.prefix_append as ds
  · rw [List.filter_append, List.append_right_eq_self, List.filter_eq_nil_iff] at hfilter
    cases hds : ds.getLast? with
    | none =>
      obtain rfl := List.getLast?_eq_none_iff.1 hds
      simp
    | some t =>
      have ht := hlast t (by rw [List.getLast?_append, hds]; rfl)
      exact absurd (by rw [ht]; rfl) (hfilter t (List.mem_of_getLast? hds))

/-- Two beginnings of one list that stop with no trivia are the same when they differ in trivia at
most. -/
theorem eq_of_filter (h : as ++ us = bs ++ vs)
    (hfilter : as.filter (!trivia ·) = bs.filter (!trivia ·))
    (ha : ∀ t ∈ as.getLast?, trivia t = false) (hb : ∀ t ∈ bs.getLast?, trivia t = false) :
    as = bs :=
  have hab := isPrefix_of_filter h hfilter ha
  have hba := isPrefix_of_filter h.symm hfilter.symm hb
  hab.eq_of_length (Nat.le_antisymm hab.length_le hba.length_le)

namespace Tight

theorem append (H : Tight trivia xs) (H' : Tight trivia ys) : Tight trivia (xs ++ ys) := by
  induction H with
  | nil => exact H'
  | leaf _ ih => exact .leaf ih
  | node hfirst hlast hc _ _ ih => exact .node hfirst hlast hc ih

theorem of_append (H : Tight trivia (xs ++ ys)) : Tight trivia xs ∧ Tight trivia ys := by
  induction xs with
  | nil => exact ⟨.nil, H⟩
  | cons x xs ih =>
    cases H with
    | leaf H => exact ⟨.leaf (ih H).1, (ih H).2⟩
    | node hfirst hlast hc H => exact ⟨.node hfirst hlast hc (ih H).1, (ih H).2⟩

theorem map_leaf (as : List α) : Tight trivia (as.map .leaf) := by
  induction as with
  | nil => exact .nil
  | cons a as ih => exact .leaf ih

theorem mapAll {f : β → α} {xs : List (Sketch β)} (H : Tight (trivia ∘ f) xs) :
    Tight trivia (mapAll f xs) := by
  induction xs using forest_induction with
  | nil => exact .nil
  | leaf a xs ih =>
    cases H with | leaf H =>
    exact .leaf (ih H)
  | node k cs xs ihc ih =>
    cases H with | node hfirst hlast hc H =>
    refine .node ?_ ?_ (ihc hc) (ih H)
    · obtain ⟨a, ha, htrivia⟩ := hfirst
      rw [leavesAll_mapAll, List.head?_map]
      exact ⟨f a, Option.mem_map_of_mem f ha, htrivia⟩
    · obtain ⟨a, ha, htrivia⟩ := hlast
      rw [leavesAll_mapAll, List.getLast?_map]
      exact ⟨f a, Option.mem_map_of_mem f ha, htrivia⟩

/-- A tight forest that starts with a node starts with no trivia. -/
theorem head_node {k : NodeKind} (H : Tight trivia (.node k cs :: xs)) :
    ∃ a as, leavesAll (.node k cs :: xs) = a :: as ∧ trivia a = false := by
  cases H with
  | node hfirst =>
    obtain ⟨a, ha, htrivia⟩ := hfirst
    obtain ⟨as, has⟩ := List.head?_eq_some_iff.1 ha
    exact ⟨a, as ++ leavesAll xs, by rw [leavesAll, leaves, has]; rfl, htrivia⟩

/-- What starts and stops with no trivia has no trivia as its first and its last leaf. -/
theorem ends (H : Tight trivia xs) (hne : xs ≠ [])
    (hhead : ∀ x ∈ xs.head?, x.isTrivia trivia = false)
    (hlast : ∀ x ∈ xs.getLast?, x.isTrivia trivia = false) :
    (∃ a ∈ (leavesAll xs).head?, trivia a = false) ∧
      ∃ a ∈ (leavesAll xs).getLast?, trivia a = false := by
  have hleaves : ∀ {x : Sketch α}, Tight trivia [x] → x.isTrivia trivia = false →
      (∃ a ∈ x.leaves.head?, trivia a = false) ∧ ∃ a ∈ x.leaves.getLast?, trivia a = false := by
    intro x H hx
    cases H with
    | leaf => exact ⟨⟨_, rfl, hx⟩, _, rfl, hx⟩
    | node hfirst hlast => exact ⟨hfirst, hlast⟩
  constructor
  · obtain ⟨x, ys, rfl⟩ := List.exists_cons_of_ne_nil hne
    rw [← List.singleton_append] at H
    obtain ⟨a, ha, htrivia⟩ := (hleaves H.of_append.1 (hhead x rfl)).1
    exact ⟨a, List.mem_head?_append_of_mem_head? ha, htrivia⟩
  · obtain ⟨ys, x, rfl⟩ := (List.eq_nil_or_concat' xs).resolve_left hne
    obtain ⟨a, ha, htrivia⟩ := (hleaves H.of_append.2 (hlast x List.getLast?_concat)).2
    refine ⟨a, ?_, htrivia⟩
    rw [leavesAll_append, leavesAll, leavesAll, List.append_nil, List.getLast?_append,
      Option.mem_def.1 ha, Option.some_or]
    rfl

theorem eq_of_strip (H : Tight trivia xs) (H' : Tight trivia ys)
    (hleaves : leavesAll xs = leavesAll ys) (hstrip : stripAll trivia xs = stripAll trivia ys) :
    xs = ys := by
  induction xs using forest_induction generalizing ys with
  | nil =>
    cases ys with
    | nil => rfl
    | cons y ys =>
      cases y with
      | leaf u => cases hleaves
      | node =>
        obtain ⟨t, ts, hts, -⟩ := H'.head_node
        rw [hts] at hleaves
        cases hleaves
  | leaf t xs ih =>
    cases ys with
    | nil => cases hleaves
    | cons y ys =>
      cases y with
      | leaf u =>
        obtain ⟨rfl, hxs⟩ := List.cons.inj hleaves
        cases H with | leaf H =>
        cases H' with | leaf H' =>
        rw [ih H H' hxs (List.append_cancel_left hstrip)]
      | node =>
        obtain ⟨u, us, hus, htrivia⟩ := H'.head_node
        rw [hus] at hleaves
        obtain ⟨rfl, -⟩ := List.cons.inj hleaves
        rw [stripAll, strip, htrivia] at hstrip
        cases hstrip
  | node k cs xs ihc ih =>
    cases ys with
    | nil => cases hstrip
    | cons y ys =>
      cases y with
      | leaf u =>
        obtain ⟨t, ts, hts, htrivia⟩ := H.head_node
        rw [hts] at hleaves
        obtain ⟨rfl, -⟩ := List.cons.inj hleaves
        rw [stripAll, strip, stripAll, strip, htrivia] at hstrip
        cases hstrip
      | node l ds =>
        cases H with | node _ hlast Hc H =>
        cases H' with | node _ hlast' Hd H' =>
        obtain ⟨hnode, hrest⟩ := List.cons.inj hstrip
        obtain ⟨rfl, hcs⟩ := Sketch.node.inj hnode
        have hfilter : (leavesAll cs).filter (!trivia ·) = (leavesAll ds).filter (!trivia ·) := by
          rw [← leavesAll_stripAll, ← leavesAll_stripAll, hcs]
        have hends {as : List α} (h : ∃ t ∈ as.getLast?, trivia t = false) :
            ∀ t ∈ as.getLast?, trivia t = false := by
          obtain ⟨u, hu, htrivia⟩ := h
          intro t ht
          rwa [Option.mem_unique ht hu]
        have hc : leavesAll cs = leavesAll ds :=
          eq_of_filter hleaves hfilter (hends hlast) (hends hlast')
        rw [leavesAll, leavesAll, leaves, leaves, hc] at hleaves
        rw [ihc Hc Hd hc hcs, ih H H' (List.append_cancel_left hleaves) hrest]

end Tight

end Sketch

namespace Element

mutual
/-- The element with its trivia, without the numbers and ranges of nodes. -/
def tree : Element → Sketch Token
  | token t => .leaf t
  | node _ k _ cs => .node k (trees cs)

def trees : List Element → List (Sketch Token)
  | [] => []
  | e :: es => e.tree :: trees es
end

theorem leavesAll_trees (es : List Element) : Sketch.leavesAll (trees es) = leavesAll es := by
  induction es using forest_induction with
  | nil => rfl
  | token t es ih => rw [trees, Sketch.leavesAll, leavesAll, ih, tree, Sketch.leaves, leaves]
  | node i k s cs es ihc ih =>
    rw [trees, Sketch.leavesAll, leavesAll, ih, tree, Sketch.leaves, leaves, ihc]

theorem stripAll_trees (es : List Element) :
    Sketch.stripAll Token.isTrivia (trees es) = sketches es := by
  induction es using forest_induction with
  | nil => rfl
  | token t es ih => rw [trees, Sketch.stripAll, sketches, ih, tree, Sketch.strip, sketch]
  | node i k s cs es ihc ih =>
    rw [trees, Sketch.stripAll, sketches, ih, tree, Sketch.strip, sketch, ihc]

end Element

end Blueprint
