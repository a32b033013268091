import Blueprint.Proofs.Tree.Regular

/-!
# Balanced brackets

The brackets in a list of tokens nest properly (`Balanced`). Below a node of a regular forest they
always do (`Regular.balanced`), and the leaves of an array or an object are one bracketed group.
-/

namespace Blueprint

namespace TokenKind

/-- The bracket that closes what the token opens. -/
def closer? : TokenKind → Option TokenKind
  | .objectStart => some .objectEnd
  | .arrayStart => some .arrayEnd
  | _ => none

def brackets : List TokenKind := [.objectStart, .objectEnd, .arrayStart, .arrayEnd]

end TokenKind

/-- Every bracket has its partner, and the brackets between the two have theirs there too. -/
inductive Balanced : List TokenKind → Prop
  | nil : Balanced []
  | cons {k : TokenKind} {ks : List TokenKind} : k ∉ TokenKind.brackets → Balanced ks →
    Balanced (k :: ks)
  | group {opening closing : TokenKind} {ks ks' : List TokenKind} :
    opening.closer? = some closing → Balanced ks → Balanced ks' →
    Balanced (opening :: (ks ++ closing :: ks'))

theorem Balanced.append {ks ks' : List TokenKind} (H : Balanced ks) (H' : Balanced ks') :
    Balanced (ks ++ ks') := by
  induction H with
  | nil => exact H'
  | cons hk _ ih => exact .cons hk ih
  | @group _ closing ks _ h Hin _ _ ih =>
    rw [List.cons_append, List.append_assoc]
    exact .group h Hin ih

namespace Sketch

variable {α : Type} {kind : α → TokenKind}

/-- The leaves of a forest are balanced when those of every tree in it are. -/
theorem balanced_leavesAll {xs : List (Sketch α)}
    (h : ∀ x ∈ xs, Balanced (x.leaves.map kind)) : Balanced ((leavesAll xs).map kind) := by
  induction xs with
  | nil => exact .nil
  | cons x xs ih =>
    rw [leavesAll, List.map_append]
    exact (h x (.head _)).append (ih fun y hy => h y (.tail _ hy))

theorem map_leavesAll_enclosed (a b : α) (ms : List (Sketch α)) :
    (leavesAll (.leaf a :: (ms ++ [.leaf b]))).map kind =
      kind a :: ((leavesAll ms).map kind ++ [kind b]) := by
  rw [leavesAll, leavesAll_append, leaves, List.map_append, List.map_append]
  rfl

end Sketch

namespace Regular

open Sketch

variable {α : Type} {kind : α → TokenKind} {bad : Sketch α → Prop} {xs cs : List (Sketch α)}
  {k : NodeKind}

/-- Between the brackets of a node stand the leaves of one node or none. -/
theorem balanced_inside {inside : NodeKind} {ms : List (Sketch α)}
    (hms : ms = [] ∨ ∃ is, ms = [.node inside is] ∧ Regular kind bad [.node inside is])
    (h : ∀ is, .node inside is ∈ ms → Balanced ((leavesAll is).map kind)) :
    Balanced ((leavesAll ms).map kind) := by
  rcases hms with rfl | ⟨is, rfl, -⟩
  · exact .nil
  · rw [leavesAll, leaves, leavesAll, List.append_nil]
    exact h is (.head _)

theorem balanced_enclosed {a b : α} {inside : NodeKind} {ms : List (Sketch α)}
    (ha : (kind a).closer? = some (kind b))
    (hms : ms = [] ∨ ∃ is, ms = [.node inside is] ∧ Regular kind bad [.node inside is])
    (h : ∀ is, .node inside is ∈ ms → Balanced ((leavesAll is).map kind)) :
    Balanced ((leavesAll (.leaf a :: (ms ++ [.leaf b]))).map kind) := by
  rw [map_leavesAll_enclosed]
  exact .group ha (balanced_inside hms h) .nil

/-- No bracket stands directly below a node of the other kinds. -/
theorem not_bracket_of_leaf (hk : k ∉ [NodeKind.array, .object, .blueprint])
    (hw : symbols kind cs ∈ k.whole.matches') {a : α} (ha : .leaf a ∈ cs) :
    kind a ∉ TokenKind.brackets := by
  have hatoms : ∀ x ∈ k.whole.atoms, ∀ t ∈ TokenKind.brackets, x ≠ .token t := by
    cases k with
    | array | object | blueprint => exact absurd (by decide) hk
    | _ => decide
  intro hmem
  exact hatoms _ (Form.mem_atoms hw _ (List.mem_map.2 ⟨_, ha, rfl⟩)) _ hmem rfl

/-- The brackets below a node of a regular forest are balanced. -/
theorem balanced_of_mem (H : Regular kind bad xs)
    (hbad : ∀ x, bad x → Balanced (x.leaves.map kind)) (hx : .node k cs ∈ xs) :
    Balanced ((leavesAll cs).map kind) := by
  induction H generalizing k cs with
  | nil => cases hx
  | leaf _ ih => exact ih ((List.mem_cons.1 hx).resolve_left nofun)
  | @node k' cs' _ hw hc _ ihc ihx =>
    rcases List.mem_cons.1 hx with he | hx
    · cases he
      have H : Regular kind bad [.node k' cs'] := .node hw hc .nil
      by_cases hk : k' ∈ [NodeKind.array, .object, .blueprint]
      · simp only [List.mem_cons, List.not_mem_nil, or_false] at hk
        rcases hk with rfl | rfl | rfl
        · obtain ⟨a, ms, b, rfl, ha, hb, hms⟩ := H.array
          exact balanced_enclosed (by rw [ha, hb]; rfl) hms fun is his =>
            ihc (.tail _ (List.mem_append_left _ his))
        · obtain ⟨a, ms, b, rfl, ha, hb, hms⟩ := H.object
          exact balanced_enclosed (by rw [ha, hb]; rfl) hms fun is his =>
            ihc (.tail _ (List.mem_append_left _ his))
        · obtain ⟨n, a, ms, b, rfl, hn, ha, hb, hms⟩ := H.blueprint
          refine .cons (by rw [hn]; decide) ?_
          exact balanced_enclosed (by rw [ha, hb]; rfl) hms fun is his =>
            ihc (.tail _ (.tail _ (List.mem_append_left _ his)))
      · refine balanced_leavesAll fun x hx => ?_
        cases x with
        | leaf a => exact .cons (not_bracket_of_leaf hk hw hx) .nil
        | node k' ds => exact ihc hx
    · exact ihx hx
  | bad _ hb _ ih =>
    rcases List.mem_cons.1 hx with he | hx
    · cases he
      exact hbad _ hb
    · exact ih hx

theorem balanced (H : Regular kind bad [.node k cs])
    (hbad : ∀ x, bad x → Balanced (x.leaves.map kind)) :
    Balanced ((leavesAll cs).map kind) :=
  H.balanced_of_mem hbad (.head _)

/-- The leaves of an array or an object are what its brackets enclose, and the brackets. -/
theorem exists_brackets (H : Regular kind bad [.node k cs])
    (hbad : ∀ x, bad x → Balanced (x.leaves.map kind)) (hk : k = .array ∨ k = .object) :
    ∃ opening ∈ valueStart, ∃ closing ks, opening.closer? = some closing ∧ Balanced ks ∧
      (leavesAll cs).map kind = opening :: (ks ++ [closing]) := by
  have hin : ∀ {inside : NodeKind} {ms : List (Sketch α)}, (ms = [] ∨ ∃ is,
      ms = [.node inside is] ∧ Regular kind bad [.node inside is]) →
      Balanced ((leavesAll ms).map kind) := by
    rintro inside ms (rfl | ⟨is, rfl, His⟩)
    · exact .nil
    · exact balanced_inside (.inr ⟨is, rfl, His⟩) fun _ h => His.balanced_of_mem hbad h
  rcases hk with rfl | rfl
  · obtain ⟨a, ms, b, rfl, ha, hb, hms⟩ := H.array
    refine ⟨.arrayStart, by decide, .arrayEnd, _, rfl, hin hms, ?_⟩
    rw [map_leavesAll_enclosed, ha, hb]
  · obtain ⟨a, ms, b, rfl, ha, hb, hms⟩ := H.object
    refine ⟨.objectStart, by decide, .objectEnd, _, rfl, hin hms, ?_⟩
    rw [map_leavesAll_enclosed, ha, hb]

end Regular

end Blueprint
