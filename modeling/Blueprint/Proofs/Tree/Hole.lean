import Blueprint.Proofs.Tree.Gap
import Blueprint.Proofs.Tree.Tight

/-!
# Trees with a hole

A tree with a hole is the way from its root down to one of its subtrees, with what stands beside the
way. Another tree with the same symbol can fill the hole: then all that is around it follows the
grammar, lies within the depth limit and is tight as before (`Regular.fill`, `Within.fill`,
`Hole.tight_fill`).
-/

namespace Blueprint

open NodeKind Sketch

/-- A tree with one of its subtrees left out. -/
inductive Hole (α : Type) where
  | here
  /-- A node with the hole in a child that has others on its left and on its right. -/
  | child (kind : NodeKind) (left : List (Sketch α)) (hole : Hole α) (right : List (Sketch α))

namespace Hole

variable {α β : Type}

/-- The tree with `x` in the hole. -/
def fill (x : Sketch α) : Hole α → Sketch α
  | here => x
  | child k left p right => .node k (left ++ p.fill x :: right)

/-- The leaves on the left of the hole. -/
def before : Hole α → List α
  | here => []
  | child _ left p _ => leavesAll left ++ p.before

/-- The leaves on the right of the hole. -/
def after : Hole α → List α
  | here => []
  | child _ _ p right => p.after ++ leavesAll right

/-- The same hole in a tree over other leaves. -/
def map (f : α → β) : Hole α → Hole β
  | here => here
  | child k left p right => child k (mapAll f left) (p.map f) (mapAll f right)

/-- The tree without trivia, and its hole. -/
def strip (trivia : α → Bool) : Hole α → Hole α
  | here => here
  | child k left p right => child k (stripAll trivia left) (p.strip trivia) (stripAll trivia right)

theorem leaves_fill (p : Hole α) (x : Sketch α) :
    (p.fill x).leaves = p.before ++ x.leaves ++ p.after := by
  induction p with
  | here => rw [fill, before, after, List.nil_append, List.append_nil]
  | child k left p right ih =>
    rw [fill, leaves, leavesAll_append, leavesAll, ih, before, after]
    simp only [List.append_assoc]

theorem map_fill (f : α → β) (p : Hole α) (x : Sketch α) :
    (p.fill x).map f = (p.map f).fill (x.map f) := by
  induction p with
  | here => rfl
  | child k left p right ih =>
    rw [fill, Sketch.map, mapAll_append, mapAll, ih]
    rfl

/-- A hole between leaves that are the images of others is the image of a hole between these. -/
theorem exists_map {f : α → β} {p : Hole β} {as bs : List α} (ha : p.before = as.map f)
    (hb : p.after = bs.map f) : ∃ q : Hole α, q.map f = p ∧ q.before = as ∧ q.after = bs := by
  induction p generalizing as bs with
  | here =>
    cases List.map_eq_nil_iff.1 ha.symm
    cases List.map_eq_nil_iff.1 hb.symm
    exact ⟨here, rfl, rfl, rfl⟩
  | child k left p right ih =>
    obtain ⟨as, as', rfl, hleft, hbefore⟩ := List.map_eq_append_iff.1 ha.symm
    obtain ⟨bs, bs', rfl, hafter, hright⟩ := List.map_eq_append_iff.1 hb.symm
    obtain ⟨left, rfl, rfl⟩ := exists_mapAll hleft.symm
    obtain ⟨right, rfl, rfl⟩ := exists_mapAll hright.symm
    obtain ⟨q, rfl, rfl, rfl⟩ := ih hbefore.symm hafter.symm
    exact ⟨child k left q right, rfl, rfl, rfl⟩

section

variable {trivia : α → Bool} {p : Hole α} {x y : Sketch α}

theorem strip_fill (p : Hole α) (h : x.strip trivia = [y]) :
    (p.fill x).strip trivia = [(p.strip trivia).fill y] := by
  induction p with
  | here => exact h
  | child k left p right ih =>
    rw [fill, Sketch.strip, stripAll_append, stripAll, ih]
    rfl

theorem before_strip (p : Hole α) :
    (p.strip trivia).before = p.before.filter (!trivia ·) := by
  induction p with
  | here => rfl
  | child k left p right ih =>
    rw [strip, before, before, List.filter_append, leavesAll_stripAll, ih]

theorem after_strip (p : Hole α) : (p.strip trivia).after = p.after.filter (!trivia ·) := by
  induction p with
  | here => rfl
  | child k left p right ih =>
    rw [strip, after, after, List.filter_append, leavesAll_stripAll, ih]

/-- What fills a hole in a tight tree is tight. -/
theorem tight_of_fill (H : Tight trivia [p.fill x]) : Tight trivia [x] := by
  induction p with
  | here => exact H
  | child k left p right ih =>
    cases H with | node _ _ H _ =>
    have hright := H.of_append.2
    rw [← List.singleton_append] at hright
    exact ih hright.of_append.1

/-- A tight tree stays so with another one in its hole that is tight and starts and stops with the same
leaves. -/
theorem tight_fill (H : Tight trivia [p.fill x]) (hy : Tight trivia [x] → Tight trivia [y])
    (hhead : x.leaves.head? = y.leaves.head?) (hlast : x.leaves.getLast? = y.leaves.getLast?) :
    Tight trivia [p.fill y] := by
  induction p with
  | here => exact hy H
  | child k left p right ih =>
    cases H with | node hfirst hstop H _ =>
    have hends (z : Sketch α) : leavesAll (left ++ p.fill z :: right) =
        leavesAll left ++ (p.before ++ z.leaves ++ p.after) ++ leavesAll right := by
      rw [leavesAll_append, leavesAll, leaves_fill]
      simp only [List.append_assoc]
    obtain ⟨hleft, hright⟩ := H.of_append
    rw [← List.singleton_append] at hright
    rw [hends] at hfirst hstop
    refine .node ?_ ?_ (hleft.append ((ih hright.of_append.1).append hright.of_append.2)) .nil
    · rw [hends]
      simpa only [List.head?_append, hhead] using hfirst
    · rw [hends]
      simpa only [List.getLast?_append, hlast] using hstop

/-- Every node has a leaf when what fills the hole has one and every node in it does. -/
theorem filled_fill (H : Filled [p.fill x]) (hy : Filled [x] → Filled [y]) (hne : y.leaves ≠ []) :
    Filled [p.fill y] := by
  induction p with
  | here => exact hy H
  | child k left p right ih =>
    cases H with | node _ H _ =>
    obtain ⟨hleft, hright⟩ := H.of_append
    rw [← List.singleton_append] at hright
    refine .node ?_ (hleft.append ((ih hright.of_append.1).append hright.of_append.2)) .nil
    simp only [leavesAll_append, leavesAll, leaves_fill, ne_eq, List.append_eq_nil_iff, hne, false_and,
      and_false, not_false_eq_true]

/-- What fills a hole in a file that is tight below its root is tight, or is the file. -/
theorem tight_of_fill_file {xs : List (Sketch α)} (h : p.fill x = .node .file xs)
    (hne : x ≠ .node .file xs) (H : Tight trivia xs) : Tight trivia [x] := by
  cases p with
  | here => exact absurd h hne
  | child k left p right =>
    obtain ⟨rfl, rfl⟩ := Sketch.node.inj h
    have hright := H.of_append.2
    rw [← List.singleton_append] at hright
    exact tight_of_fill hright.of_append.1

/-- A file with a tree in a hole is known by its leaves and by what it is without trivia. -/
theorem eq_fill {xs ys : List (Sketch α)} (hxs : p.fill x = .node .file xs)
    (hne : x ≠ .node .file xs) (Hxs : Tight trivia xs) (Hys : Tight trivia ys)
    (hy : Tight trivia [x] → Tight trivia [y]) (hhead : x.leaves.head? = y.leaves.head?)
    (hlast : x.leaves.getLast? = y.leaves.getLast?)
    (hleaves : (Sketch.node .file ys).leaves = (p.fill y).leaves)
    (hstrip : (Sketch.node .file ys).strip trivia = (p.fill y).strip trivia) :
    .node .file ys = p.fill y := by
  cases p with
  | here => exact absurd hxs hne
  | child k left p right =>
    obtain ⟨rfl, rfl⟩ := Sketch.node.inj hxs
    obtain ⟨hleft, hright⟩ := Hxs.of_append
    rw [← List.singleton_append] at hright
    have H : Tight trivia (left ++ ([p.fill y] ++ right)) :=
      hleft.append ((tight_fill hright.of_append.1 hy hhead hlast).append hright.of_append.2)
    exact congrArg _ (Hys.eq_of_strip H hleaves (Sketch.node.inj (List.cons.inj hstrip).1).2)

end

variable {kind : α → TokenKind} {p : Hole α} {x y : Sketch α}

theorem symbol_fill (p : Hole α) (h : symbol kind x = symbol kind y) :
    symbol kind (p.fill x) = symbol kind (p.fill y) := by
  cases p with
  | here => exact h
  | child => rfl

theorem symbols_fill (left right : List (Sketch α)) (p : Hole α)
    (h : symbol kind x = symbol kind y) :
    symbols kind (left ++ p.fill x :: right) = symbols kind (left ++ p.fill y :: right) := by
  rw [symbols_append, symbols_cons, p.symbol_fill h, ← symbols_cons, ← symbols_append]

end Hole

section

variable {α : Type} {kind : α → TokenKind} {bad : Sketch α → Prop} {p : Hole α} {x y : Sketch α}

/-- What fills a hole in a regular tree is regular. -/
theorem Regular.of_fill (H : Regular kind (fun _ => False) [p.fill x]) :
    Regular kind (fun _ => False) [x] := by
  induction p with
  | here => exact H
  | child k left p right ih =>
    cases H with
    | node _ hc _ => exact ih hc.right.head
    | bad _ hb => exact hb.elim

/-- A hole in a regular tree can be filled with another one that has the same symbol. -/
theorem Regular.fill (H : Regular kind (fun _ => False) [p.fill x])
    (hsymbol : symbol kind x = symbol kind y) (hy : Regular kind bad [y]) :
    Regular kind bad [p.fill y] := by
  induction p with
  | here => exact hy
  | child k left p right ih =>
    cases H with
    | node hw hc _ =>
      have hright : Regular kind bad (p.fill y :: right) :=
        (ih hc.right.head).append (hc.right.tail.mono nofun)
      refine .node ?_ ((hc.left.mono nofun).append hright) .nil
      rwa [← p.symbols_fill left right hsymbol]
    | bad _ hb => exact hb.elim

/-- What fills a hole in a tree within the depth limit decides whether the tree stays within it. -/
theorem Within.fill {depth n : Nat} {above : List NodeKind}
    (H : Within kind depth (fun _ => False) above [p.fill x] 0)
    (hp : Regular kind (fun _ => False) [p.fill x]) (hsymbol : symbol kind x = symbol kind y)
    (hbad : ∀ k cs, bad (.node k cs) → symbols kind cs ∉ k.whole.matches')
    (hy : ∀ above, Within kind depth (fun _ => False) above [x] 0 →
      Within kind depth bad above [y] n) : Within kind depth bad above [p.fill y] n := by
  induction p generalizing above with
  | here => exact hy above H
  | child k left p right ih =>
    obtain ⟨hreach, Hc, -⟩ := H.of_node
    cases hp with
    | node hw hc _ =>
      rw [p.symbols_fill left right hsymbol] at hreach hw
      obtain ⟨hleft, hright⟩ := Hc.of_append
      have hright : Within kind depth (fun _ => False) (k :: above) ([p.fill x] ++ right) 0 :=
        hright
      have hhole := ih hright.of_append.1 hc.right.head
      have hchildren := (hleft.of_regular hc.left hbad).append
        (hhole.append (hright.of_append.2.of_regular hc.right.tail hbad))
      rw [Nat.zero_add] at hchildren
      exact .node (n := 0) hreach (.inr fun hb => hbad k _ hb hw) hchildren .nil
    | bad _ hb => exact hb.elim

end

end Blueprint
