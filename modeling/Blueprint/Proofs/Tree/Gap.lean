import Blueprint.Proofs.Token.Splice
import Blueprint.Proofs.Tree.Cut

/-!
# Gaps between entries

A gap is a place between the entries of a module or of an object, at any depth of a tree. What the
tree is with further entries in the gap (`Gap.around`) follows the grammar when the tree without
them does and the entries do (`Regular.around`), and reaches no deeper (`Within.around`).
-/

namespace Blueprint

open NodeKind Sketch Form

/-- A tree with a place between the entries of a body in it. -/
inductive Gap (α : Type) where
  /-- The body of a module with a name, or of an object. The entries, with the commas between them,
  are on the left and on the right of the gap. -/
  | body (name : Option α) (opening : α) (left right : List (Sketch α)) (closing : α)
  /-- A node with the gap in a child that has others on its left and on its right. -/
  | child (kind : NodeKind) (left : List (Sketch α)) (gap : Gap α) (right : List (Sketch α))

namespace Gap

variable {α β : Type}

/-- The node over entries, if there are any. -/
def members : List (Sketch α) → List (Sketch α)
  | [] => []
  | x :: xs => [.node .members (x :: xs)]

/-- Entries in braces. -/
def braces (opening : α) (entries : List (Sketch α)) (closing : α) : List (Sketch α) :=
  .leaf opening :: (members entries ++ [.leaf closing])

/-- The tree with `entries` in the gap. -/
def around (entries : List (Sketch α)) : Gap α → Sketch α
  | body none a left right b => .node .object (braces a (left ++ entries ++ right) b)
  | body (some n) a left right b =>
    .node .blueprint (.node .blueprintType [.leaf n] :: braces a (left ++ entries ++ right) b)
  | child k left gap right => .node k (left ++ gap.around entries :: right)

/-- The entries of the body with `entries` in the gap. -/
def siblings (entries : List (Sketch α)) : Gap α → List (Sketch α)
  | body _ _ left right _ => left ++ entries ++ right
  | child _ _ gap _ => gap.siblings entries

/-- The leaves on the left of the gap. -/
def before : Gap α → List α
  | body n a left _ _ => n.toList ++ a :: leavesAll left
  | child _ left gap _ => leavesAll left ++ gap.before

/-- The leaves on the right of the gap. -/
def after : Gap α → List α
  | body _ _ _ right b => leavesAll right ++ [b]
  | child _ _ gap right => gap.after ++ leavesAll right

/-- The same gap in a tree over other leaves. -/
def map (f : α → β) : Gap α → Gap β
  | body n a left right b => body (n.map f) (f a) (mapAll f left) (mapAll f right) (f b)
  | child k left gap right => child k (mapAll f left) (gap.map f) (mapAll f right)

theorem leavesAll_members (xs : List (Sketch α)) : leavesAll (members xs) = leavesAll xs := by
  cases xs with
  | nil => rfl
  | cons x xs => exact leavesAll_node _ _

theorem leavesAll_braces (a b : α) (xs : List (Sketch α)) :
    leavesAll (braces a xs b) = a :: (leavesAll xs ++ [b]) := by
  rw [braces, leavesAll, leavesAll_append, leavesAll_members]
  rfl

theorem leaves_around (g : Gap α) (es : List (Sketch α)) :
    (g.around es).leaves = g.before ++ leavesAll es ++ g.after := by
  induction g with
  | body n a left right b =>
    cases n with
    | none =>
      rw [around, leaves, leavesAll_braces, before, after]
      simp only [leavesAll_append, Option.toList_none, List.nil_append, List.cons_append,
        List.append_assoc]
    | some n =>
      rw [around, leaves, leavesAll, leavesAll_braces, before, after]
      simp only [leavesAll_append, Option.toList_some, List.cons_append, List.append_assoc,
        leaves, leavesAll, List.nil_append]
  | child k left g right ih =>
    rw [around, leaves, leavesAll_append, leavesAll, ih, before, after]
    simp only [List.append_assoc]

theorem mapAll_members (f : α → β) (xs : List (Sketch α)) :
    mapAll f (members xs) = members (mapAll f xs) := by
  cases xs <;> rfl

theorem mapAll_braces (f : α → β) (a b : α) (xs : List (Sketch α)) :
    mapAll f (braces a xs b) = braces (f a) (mapAll f xs) (f b) := by
  rw [braces, mapAll, mapAll_append, mapAll_members]
  rfl

theorem map_around (f : α → β) (g : Gap α) (es : List (Sketch α)) :
    (g.around es).map f = (g.map f).around (mapAll f es) := by
  induction g with
  | body n a left right b =>
    cases n with
    | none =>
      rw [around, Sketch.map, mapAll_braces, mapAll_append, mapAll_append]
      rfl
    | some n =>
      rw [around, Sketch.map, mapAll, mapAll_braces, mapAll_append, mapAll_append]
      rfl
  | child k left g right ih =>
    rw [around, Sketch.map, mapAll_append, mapAll, ih]
    rfl

theorem siblings_map (f : α → β) (g : Gap α) (es : List (Sketch α)) :
    (g.map f).siblings (mapAll f es) = mapAll f (g.siblings es) := by
  induction g with
  | body n a left right b =>
    rw [map, siblings, siblings, mapAll_append, mapAll_append]
  | child k left g right ih => exact ih

theorem symbol_around (kind : α → TokenKind) (g : Gap α) (es fs : List (Sketch α)) :
    symbol kind (g.around es) = symbol kind (g.around fs) := by
  cases g with
  | body n => cases n <;> rfl
  | child => rfl

end Gap

/-- Leaves that are the images of others can be replaced by these. -/
theorem Sketch.exists_mapAll {α β : Type} {f : α → β} {xs : List (Sketch β)} {as : List α}
    (h : leavesAll xs = as.map f) : ∃ ys, mapAll f ys = xs ∧ leavesAll ys = as := by
  induction xs using forest_induction generalizing as with
  | nil =>
    cases List.map_eq_nil_iff.1 h.symm
    exact ⟨[], rfl, rfl⟩
  | leaf b xs ih =>
    obtain ⟨a, as, rfl, rfl, hx⟩ := List.map_eq_cons_iff.1 h.symm
    obtain ⟨ys, rfl, rfl⟩ := ih hx.symm
    exact ⟨.leaf a :: ys, rfl, rfl⟩
  | node k cs xs ihc ih =>
    obtain ⟨as, as', rfl, hc, hx⟩ := List.map_eq_append_iff.1 h.symm
    obtain ⟨ds, rfl, rfl⟩ := ihc hc.symm
    obtain ⟨ys, rfl, rfl⟩ := ih hx.symm
    exact ⟨.node k ds :: ys, rfl, rfl⟩

namespace Gap

variable {α β : Type}

theorem exists_map {f : α → β} {g : Gap β} {as bs : List α} (ha : g.before = as.map f)
    (hb : g.after = bs.map f) : ∃ h : Gap α, h.map f = g ∧ h.before = as ∧ h.after = bs := by
  induction g generalizing as bs with
  | body n a left right b =>
    obtain ⟨ns, as, rfl, hn, ha⟩ := List.map_eq_append_iff.1 ha.symm
    obtain ⟨a, as, rfl, rfl, hleft⟩ := List.map_eq_cons_iff.1 ha
    obtain ⟨bs, cs, rfl, hright, hb⟩ := List.map_eq_append_iff.1 hb.symm
    obtain ⟨b, cs, rfl, rfl, hc⟩ := List.map_eq_cons_iff.1 hb
    cases List.map_eq_nil_iff.1 hc
    obtain ⟨left, rfl, rfl⟩ := exists_mapAll hleft.symm
    obtain ⟨right, rfl, rfl⟩ := exists_mapAll hright.symm
    cases n with
    | none =>
      cases List.map_eq_nil_iff.1 hn
      exact ⟨body none a left right b, rfl, rfl, rfl⟩
    | some n =>
      obtain ⟨n, ns, rfl, rfl, hns⟩ := List.map_eq_cons_iff.1 hn
      cases List.map_eq_nil_iff.1 hns
      exact ⟨body (some n) a left right b, rfl, rfl, rfl⟩
  | child k left g right ih =>
    obtain ⟨as, as', rfl, hleft, hbefore⟩ := List.map_eq_append_iff.1 ha.symm
    obtain ⟨bs, bs', rfl, hafter, hright⟩ := List.map_eq_append_iff.1 hb.symm
    obtain ⟨left, rfl, rfl⟩ := exists_mapAll hleft.symm
    obtain ⟨right, rfl, rfl⟩ := exists_mapAll hright.symm
    obtain ⟨h, rfl, rfl, rfl⟩ := ih hbefore.symm hafter.symm
    exact ⟨child k left h right, rfl, rfl, rfl⟩

variable {kind : α → TokenKind} {depth n : Nat} {bad : Sketch α → Prop} {a b : α}
  {above : List NodeKind} {es xs : List (Sketch α)}

theorem symbols_members_mem (xs : List (Sketch α)) :
    symbols kind (members xs) ∈ (optional (.node .members)).matches' := by
  cases xs with
  | nil => exact mem_optional.2 (.inl rfl)
  | cons => exact mem_optional.2 (.inr rfl)

theorem symbols_around (left right : List (Sketch α)) (g : Gap α) (es fs : List (Sketch α)) :
    symbols kind (left ++ g.around es :: right) = symbols kind (left ++ g.around fs :: right) := by
  rw [symbols_append, symbols_cons, symbol_around kind g es fs, ← symbols_cons, ← symbols_append]

theorem symbols_braces : symbols kind (braces a xs b) =
    .token (kind a) :: (symbols kind (members xs) ++ [.token (kind b)]) := by
  rw [braces, symbols, List.map_cons, ← symbols, symbols_append]
  rfl

end Gap

open Gap

namespace Regular

variable {α : Type} {kind : α → TokenKind} {bad : Sketch α → Prop} {a b : α} {g : Gap α}
  {es xs : List (Sketch α)}

theorem of_members (H : Regular kind bad (members xs)) : Regular kind bad xs := by
  cases xs with
  | nil => exact .nil
  | cons => exact (H.of_node (by decide)).2

theorem members (H : Regular kind bad xs)
    (h : xs = [] ∨ symbols kind xs ∈ (list (.node .pair)).matches') :
    Regular kind bad (members xs) := by
  cases xs with
  | nil => exact .nil
  | cons => exact .node (h.resolve_left nofun) H .nil

/-- The braces of a regular body have the right kinds. -/
theorem kinds_braces {is : List (Sketch α)} {a' b' : α}
    (h : braces a xs b = .leaf a' :: (is ++ [.leaf b'])) : a = a' ∧ b = b' := by
  obtain ⟨ha, h⟩ := List.cons.inj h
  obtain ⟨-, hb⟩ := List.append_inj' h rfl
  cases ha
  cases hb
  exact ⟨rfl, rfl⟩

/-- The entries on both sides of a gap are regular. -/
theorem of_braces (H : Regular kind bad (braces a xs b)) : Regular kind bad xs :=
  of_members H.of_leaf.left

theorem braces (H : Regular kind bad xs)
    (h : xs = [] ∨ symbols kind xs ∈ (list (.node .pair)).matches') :
    Regular kind bad (braces a xs b) := .leaf ((H.members h).append (.leaf .nil))

/-- Entries in a gap and those on both sides of it. -/
theorem around_entries {left right : List (Sketch α)}
    (H : Regular kind (fun _ => False) (left ++ [] ++ right)) (hes : Regular kind bad es) :
    Regular kind bad (left ++ es ++ right) :=
  ((H.left.left.mono nofun).append hes).append (H.right.mono nofun)

/-- Entries that make a list of entries with those on both sides of a gap can stand there. -/
theorem around (H : Regular kind (fun _ => False) [g.around []]) (hes : Regular kind bad es)
    (h : symbols kind (g.siblings es) ∈ (list (.node .pair)).matches') :
    Regular kind bad [g.around es] := by
  induction g with
  | body n a left right b =>
    cases n with
    | none =>
      obtain ⟨a', is, b', he, ha, hb, -⟩ := H.object
      obtain ⟨rfl, rfl⟩ := kinds_braces he
      have hentries := around_entries (H.of_node (by decide)).2.of_braces hes
      refine .node ?_ (hentries.braces (.inr h)) .nil
      rw [symbols_braces, ha, hb]
      exact ⟨_, ⟨_, rfl, _, symbols_members_mem _, rfl⟩, _, rfl, rfl⟩
    | some n =>
      obtain ⟨n', a', is, b', he, hn, ha, hb, -⟩ := H.blueprint
      obtain ⟨hname, he⟩ := List.cons.inj he
      obtain ⟨rfl, rfl⟩ := kinds_braces he
      have hbody := (H.of_node (by decide)).2
      have hentries := around_entries hbody.tail.of_braces hes
      refine .node ?_ ((hbody.head.mono nofun).append (hentries.braces (.inr h))) .nil
      rw [symbols_cons, symbols_braces, ha, hb]
      exact ⟨_, ⟨_, ⟨_, rfl, _, rfl, rfl⟩, _, symbols_members_mem _, rfl⟩, _, rfl, rfl⟩
  | child k left g right ih =>
    rw [Gap.around] at H ⊢
    cases H with
    | node hw hc _ =>
      have hright : Regular kind bad (g.around es :: right) :=
        (ih hc.right.head h).append (hc.right.tail.mono nofun)
      refine .node ?_ ((hc.left.mono nofun).append hright) .nil
      rwa [symbols_around left right g es []]
    | bad _ hb => exact hb.elim

/-- Entries make a list of entries. -/
theorem symbols_of_members (H : Regular kind bad (Gap.members xs)) (h : xs ≠ []) :
    symbols kind xs ∈ (list (.node .pair)).matches' := by
  cases xs with
  | nil => exact absurd rfl h
  | cons => exact (H.of_node (by decide)).1

theorem atEntry_right {left right : List (Sketch α)} (hb : kind b = .objectEnd)
    (H : Regular kind (fun _ => False) (Gap.braces a (left ++ [] ++ right) b)) :
    AtEntry ((leavesAll right ++ [b]).map kind) := by
  have hright := H.of_braces.right
  cases right with
  | nil =>
    rw [leavesAll, List.nil_append, List.map_singleton, hb]
    exact .closing
  | cons x xs =>
    have hword := H.of_leaf.left.symbols_of_members
      (List.append_ne_nil_of_right_ne_nil _ (List.cons_ne_nil x xs))
    have hatoms : ∀ y ∈ (list (.node .pair)).atoms, y = .node .pair ∨ y = .token .separator := by
      decide
    have hx := hatoms _ (mem_atoms hword (symbol kind x)
      (List.mem_map_of_mem (List.mem_append_right _ (.head _))))
    cases x with
    | leaf c =>
      obtain hc : kind c = .separator := Symbol.token.inj (hx.resolve_left (by simp [symbol]))
      rw [leavesAll, leaves, List.append_assoc, List.singleton_append, List.map_cons, hc]
      exact .separator
    | node k cs =>
      obtain rfl : k = .pair := Symbol.node.inj (hx.resolve_right (by simp [symbol]))
      obtain ⟨n, e, vs, rfl, hn, he, -⟩ := hright.head.pair.resolve_left id
      simp only [leavesAll, leaves, List.cons_append, List.nil_append, List.map_cons, hn, he]
      exact .entry

/-- On the right of a gap stand a comma, an entry or the closing brace. -/
theorem atEntry_after (H : Regular kind (fun _ => False) [g.around []]) :
    AtEntry (g.after.map kind) := by
  induction g with
  | body n a left right b =>
    cases n with
    | none =>
      obtain ⟨a', is, b', he, -, hb, -⟩ := H.object
      obtain ⟨rfl, rfl⟩ := kinds_braces he
      exact atEntry_right hb (H.of_node (by decide)).2
    | some n =>
      obtain ⟨n', a', is, b', he, -, -, hb, -⟩ := H.blueprint
      obtain ⟨rfl, rfl⟩ := kinds_braces (List.cons.inj he).2
      exact atEntry_right hb (H.of_node (by decide)).2.tail
  | child k left g right ih =>
    rw [Gap.around] at H
    cases H with
    | node _ hc _ =>
      rw [after, List.map_append]
      exact (ih hc.right.head).append _
    | bad _ hb => exact hb.elim

end Regular

namespace Within

variable {α : Type} {kind : α → TokenKind} {depth n : Nat} {bad : Sketch α → Prop} {a b : α}
  {above : List NodeKind} {g : Gap α} {es xs : List (Sketch α)}

theorem of_members (H : Within kind depth (fun _ => False) above (Gap.members xs) 0) :
    Within kind depth (fun _ => False) (.members :: above) xs 0 := by
  cases xs with
  | nil => exact .nil
  | cons => exact H.of_node.2.1

theorem members (hlevels : levels above ≤ depth)
    (H : Within kind depth bad (.members :: above) xs n) :
    Within kind depth bad above (Gap.members xs) n := by
  cases xs with
  | nil =>
    cases H
    exact .nil
  | cons =>
    refine .node ?_ (.inl (by decide)) H .nil
    rw [reach_of_ne (by decide)]
    exact hlevels

section
variable (hbad : ∀ k cs, bad (.node k cs) → symbols kind cs ∉ k.whole.matches')
  (hes : ∀ above, levels above ≤ depth → Within kind depth bad above es n)
include hbad hes

/-- Entries in a gap and those on both sides of it. -/
theorem around_braces {left right : List (Sketch α)} (hlevels : levels above ≤ depth)
    (H : Within kind depth (fun _ => False) above (braces a (left ++ [] ++ right) b) 0)
    (hg : Regular kind (fun _ => False) (braces a (left ++ [] ++ right) b)) :
    Within kind depth bad above (braces a (left ++ es ++ right) b) n := by
  cases H with | leaf H =>
  have hsides := H.of_append.1.of_members
  have hleft := hsides.of_append.1.of_append.1.of_regular hg.of_braces.left.left hbad
  have hright := hsides.of_append.2.of_regular hg.of_braces.right hbad
  have hentries := (hleft.append (hes _ hlevels)).append hright
  rw [Nat.zero_add] at hentries
  exact .leaf ((members hlevels hentries).append (.leaf .nil))

/-- Entries in a gap lie no deeper than the braces around it. -/
theorem around (H : Within kind depth (fun _ => False) above [g.around []] 0)
    (hg : Regular kind (fun _ => False) [g.around []]) :
    Within kind depth bad above [g.around es] n := by
  induction g generalizing above with
  | body m a left right b =>
    cases m with
    | none =>
      obtain ⟨hreach, Hc, -⟩ := H.of_node
      rw [reach_of_ne (by decide)] at hreach
      refine .node (n := 0) ?_ (.inl (by decide))
        (around_braces hbad hes hreach Hc (hg.of_node (by decide)).2) .nil
      rwa [reach_of_ne (by decide)]
    | some m =>
      obtain ⟨hreach, Hc, -⟩ := H.of_node
      rw [reach_of_ne (by decide)] at hreach
      obtain ⟨hname, -, Hc⟩ := Hc.of_node
      have hbody := around_braces hbad hes hreach Hc (hg.of_node (by decide)).2.tail
      have hnode := node (n := 0) (by rwa [reach_of_ne (by decide)]) (.inl (by decide))
        (.node hname (.inl (by decide)) (.leaf .nil) hbody) .nil
      rwa [Nat.zero_add] at hnode
  | child k left g right ih =>
    rw [Gap.around] at H hg ⊢
    obtain ⟨hreach, Hc, -⟩ := H.of_node
    cases hg with
    | node hw hc _ =>
      rw [symbols_around left right g [] es] at hreach hw
      obtain ⟨hleft, hright⟩ := Hc.of_append
      have hright : Within kind depth (fun _ => False) (k :: above) ([g.around []] ++ right) 0 :=
        hright
      have hgap := ih hright.of_append.1 hc.right.head
      have hchildren := (hleft.of_regular hc.left hbad).append
        (hgap.append (hright.of_append.2.of_regular hc.right.tail hbad))
      rw [Nat.zero_add] at hchildren
      exact .node (n := 0) hreach (.inr fun hb => hbad k _ hb hw) hchildren .nil
    | bad _ hb => exact hb.elim

end

end Within

end Blueprint
