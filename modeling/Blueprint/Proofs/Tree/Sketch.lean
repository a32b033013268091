import Blueprint.Proofs.Token.Words
import Blueprint.Proofs.Tree.Symbols

/-!
# Sketches of trees

A sketch has the kinds of the nodes and the tokens of a tree, and neither trivia nor the numbers and
ranges of nodes. `Sketch.map` replaces the tokens by what counts about them: with `Token.word` they
lose their places, so that trees of different texts can be compared.
-/

namespace Blueprint

/-- A tree that has values of a type as its leaves. -/
inductive Sketch (α : Type) where
  | leaf (a : α)
  | node (kind : NodeKind) (children : List (Sketch α))

/-- Induction on a list of sketches: a leaf or a node in front of others, and those below a node. -/
theorem Sketch.forest_induction {α : Type} {motive : List (Sketch α) → Prop} (nil : motive [])
    (leaf : ∀ a xs, motive xs → motive (.leaf a :: xs))
    (node : ∀ k cs xs, motive cs → motive xs → motive (.node k cs :: xs)) : ∀ xs, motive xs
  | [] => nil
  | .leaf a :: xs => leaf a xs (forest_induction nil leaf node xs)
  | .node k cs :: xs =>
    node k cs xs (forest_induction nil leaf node cs) (forest_induction nil leaf node xs)

namespace Sketch

variable {α β : Type}

mutual
/-- The same tree over other leaves. -/
def map (f : α → β) : Sketch α → Sketch β
  | leaf a => leaf (f a)
  | node k cs => node k (mapAll f cs)

def mapAll (f : α → β) : List (Sketch α) → List (Sketch β)
  | [] => []
  | x :: xs => x.map f :: mapAll f xs
end

mutual
/-- The leaves, from left to right. -/
def leaves : Sketch α → List α
  | leaf a => [a]
  | node _ cs => leavesAll cs

def leavesAll : List (Sketch α) → List α
  | [] => []
  | x :: xs => x.leaves ++ leavesAll xs
end

mutual
def decEq [DecidableEq α] : (x y : Sketch α) → Decidable (x = y)
  | leaf a, leaf b => if h : a = b then isTrue (by rw [h]) else isFalse (by simpa using h)
  | leaf _, node .. => isFalse (by simp)
  | node .., leaf _ => isFalse (by simp)
  | node k cs, node l ds =>
    if h : k = l then
      match decEqAll cs ds with
      | isTrue hc => isTrue (by rw [h, hc])
      | isFalse hc => isFalse (by simp [hc])
    else isFalse (by simp [h])

def decEqAll [DecidableEq α] : (xs ys : List (Sketch α)) → Decidable (xs = ys)
  | [], [] => isTrue rfl
  | [], _ :: _ => isFalse (by simp)
  | _ :: _, [] => isFalse (by simp)
  | x :: xs, y :: ys =>
    match decEq x y, decEqAll xs ys with
    | isTrue h, isTrue hs => isTrue (by rw [h, hs])
    | isFalse h, _ => isFalse (by simp [h])
    | _, isFalse hs => isFalse (by simp [hs])
end

instance [DecidableEq α] : DecidableEq (Sketch α) := decEq

@[simp] theorem mapAll_append (f : α → β) (xs ys : List (Sketch α)) :
    mapAll f (xs ++ ys) = mapAll f xs ++ mapAll f ys := by
  induction xs with
  | nil => rfl
  | cons x xs ih => simp only [List.cons_append, mapAll, ih]

@[simp] theorem leavesAll_append (xs ys : List (Sketch α)) :
    leavesAll (xs ++ ys) = leavesAll xs ++ leavesAll ys := by
  induction xs with
  | nil => rfl
  | cons x xs ih => simp only [List.cons_append, leavesAll, ih, List.append_assoc]

@[simp] theorem leavesAll_map_leaf (as : List α) : leavesAll (as.map .leaf) = as := by
  induction as with
  | nil => rfl
  | cons a as ih => rw [List.map_cons, leavesAll, leaves, ih, List.singleton_append]

theorem leavesAll_mapAll (f : α → β) (xs : List (Sketch α)) :
    leavesAll (mapAll f xs) = (leavesAll xs).map f := by
  induction xs using forest_induction with
  | nil => rfl
  | leaf a xs ih => rw [mapAll, leavesAll, leavesAll, ih, List.map_append]; rfl
  | node k cs xs ihc ih =>
    rw [mapAll, leavesAll, leavesAll, ih, List.map_append, Sketch.map, leaves, leaves, ihc]

@[simp] theorem leavesAll_node (k : NodeKind) (cs : List (Sketch α)) :
    leavesAll [.node k cs] = leavesAll cs := List.append_nil _

end Sketch

namespace Element

open Token

mutual
/-- What an element is without trivia; trivia is nothing. -/
def sketch : Element → List (Sketch Token)
  | token t => if t.isTrivia then [] else [.leaf t]
  | node _ k _ cs => [.node k (sketches cs)]

def sketches : List Element → List (Sketch Token)
  | [] => []
  | e :: es => e.sketch ++ sketches es
end

@[simp] theorem sketches_append (es fs : List Element) :
    sketches (es ++ fs) = sketches es ++ sketches fs := by
  induction es with
  | nil => rfl
  | cons e es ih => simp only [List.cons_append, sketches, ih, List.append_assoc]

theorem sketches_map_token (ts : List Token) :
    sketches (ts.map .token) = (significant ts).map .leaf := by
  induction ts with
  | nil => rfl
  | cons t ts ih =>
    cases h : t.isTrivia with
    | true => simp [sketches, sketch, significant_cons_trivia h, h, ih]
    | false => simp [sketches, sketch, significant_cons h, h, ih]

theorem sketches_token {t : Token} (h : t.isTrivia = false) :
    sketches [.token t] = [.leaf t] := by
  simp [sketches, sketch, h]

@[simp] theorem sketches_node (i : Nat) (k : NodeKind) (s : Span) (cs : List Element) :
    sketches [.node i k s cs] = [.node k (sketches cs)] := rfl

/-- The leaves of a sketch are the tokens of the tree that are not trivia. -/
theorem leavesAll_sketches (es : List Element) :
    Sketch.leavesAll (sketches es) = significant (leavesAll es) := by
  induction es using forest_induction with
  | nil => rfl
  | token t es ih =>
    cases h : t.isTrivia with
    | true =>
      simp [sketches, sketch, h, ih, leavesAll, leaves, significant_cons_trivia h]
    | false =>
      simp [sketches, sketch, h, ih, leavesAll, leaves, significant_cons h, Sketch.leavesAll,
        Sketch.leaves]
  | node i k s cs es ihc ihe =>
    simp [sketches, sketch, Sketch.leavesAll, Sketch.leaves, ihc, ihe, leavesAll, leaves]

/-- What elements are without trivia and without places. -/
def plain (es : List Element) : List (Sketch Word) := Sketch.mapAll word (sketches es)

@[simp] theorem plain_append (es fs : List Element) : plain (es ++ fs) = plain es ++ plain fs := by
  simp only [plain, sketches_append, Sketch.mapAll_append]

theorem plain_trivia {ts : List Token} (h : ∀ t ∈ ts, t.isTrivia = true) :
    plain (ts.map .token) = [] := by
  rw [plain, sketches_map_token, significant_eq_nil h]
  rfl

theorem plain_token {t : Token} (h : t.isTrivia = false) :
    plain [.token t] = [.leaf t.word] := by
  rw [plain, sketches_token h]
  rfl

@[simp] theorem plain_node (i : Nat) (k : NodeKind) (s : Span) (cs : List Element) :
    plain [.node i k s cs] = [.node k (plain cs)] := rfl

end Element

/-- The tree without trivia and without places. -/
def Tree.plain (tree : Tree) : Sketch Word :=
  .node tree.root.kind (Element.plain tree.root.children)

end Blueprint
