import Blueprint.Proofs.Tree.Regular
import Blueprint.SyntaxError

/-!
# Trees cut at a depth

What the depth limit makes of a tree: `Cut depth bad above xs ys errors` says that of the forest
`xs` below `above` the forest `ys` is left, with an error for each construct that is cut out. What is
bad stays as it is and has an error of its own.
-/

namespace Blueprint

open NodeKind Sketch

/-- How deep a node reaches: as deep as itself, and a value that is a reference as deep as that. -/
def NodeKind.reach (kind : NodeKind) (above : List NodeKind) (word : List Symbol) : Nat :=
  if kind = .value ∧ word = [.node .variableRefExpr] then
    levels (.variableRefExpr :: .value :: above)
  else levels (kind :: above)

theorem NodeKind.reach_of_ne {kind : NodeKind} (h : kind ≠ .value) (above : List NodeKind)
    (word : List Symbol) : kind.reach above word = levels (kind :: above) :=
  if_neg fun hv => h hv.1

/-- The first of the tokens that are skipped directly below a node. -/
def Sketch.skipped? {α : Type} : List (Sketch α) → Option α
  | [] => none
  | .node .error cs :: _ => (leavesAll cs).head?
  | _ :: xs => skipped? xs

/-- The error can be the one about a bad node. About the contents of an array it is about the first
token that is skipped in them. -/
def SyntaxError.Concerns (e : SyntaxError) : Sketch Token → Prop
  | .node .elements cs => ∀ t ∈ skipped? cs, e.span = t.span
  | _ => True

/-- What is left of a forest at a depth limit, and the errors about it. -/
inductive Cut (depth : Nat) (bad : Sketch Token → Prop) :
    List NodeKind → List (Sketch Token) → List (Sketch Token) → List SyntaxError → Prop
  | nil {above : List NodeKind} : Cut depth bad above [] [] []
  | leaf {above : List NodeKind} {t : Token} {xs ys : List (Sketch Token)}
    {errors : List SyntaxError} : Cut depth bad above xs ys errors →
    Cut depth bad above (.leaf t :: xs) (.leaf t :: ys) errors
  | node {above : List NodeKind} {k : NodeKind} {cs ds xs ys : List (Sketch Token)}
    {errors errors' : List SyntaxError} : k.reach above (symbols Token.kind cs) ≤ depth →
    k ∉ NodeKind.frail ∨ ¬bad (.node k cs) → Cut depth bad (k :: above) cs ds errors →
    Cut depth bad above xs ys errors' →
    Cut depth bad above (.node k cs :: xs) (.node k ds :: ys) (errors ++ errors')
  | deep {above : List NodeKind} {k : NodeKind} {cs xs ys : List (Sketch Token)} {t : Token}
    {ts : List Token} {errors : List SyntaxError} : depth < k.reach above (symbols Token.kind cs) →
    leavesAll cs = t :: ts → Cut depth bad above xs ys errors →
    Cut depth bad above (.node k cs :: xs) (.node .error ((t :: ts).map .leaf) :: ys)
      (⟨.nestingTooDeep depth, t.span⟩ :: errors)
  | bad {above : List NodeKind} {k : NodeKind} {cs xs ys : List (Sketch Token)} {e : SyntaxError}
    {errors : List SyntaxError} : k ∈ NodeKind.frail → bad (.node k cs) → e.Concerns (.node k cs) →
    Cut depth bad above xs ys errors →
    Cut depth bad above (.node k cs :: xs) (.node k cs :: ys) (e :: errors)

namespace Cut

variable {depth : Nat} {bad : Sketch Token → Prop} {above : List NodeKind}
  {xs xs' ys ys' : List (Sketch Token)} {errors errors' : List SyntaxError}

theorem append (H : Cut depth bad above xs ys errors) (H' : Cut depth bad above xs' ys' errors') :
    Cut depth bad above (xs ++ xs') (ys ++ ys') (errors ++ errors') := by
  induction H with
  | nil => exact H'
  | leaf _ ih => exact .leaf (ih H')
  | node hreach hgood hc _ _ ih =>
    rw [List.append_assoc]
    exact .node hreach hgood hc (ih H')
  | deep hreach hleaves _ ih => exact .deep hreach hleaves (ih H')
  | bad hk hb he _ ih => exact .bad hk hb he (ih H')

/-- Tokens are left as they are. -/
theorem eq_of_map_leaf {ts : List Token} (H : Cut depth bad above (ts.map .leaf) ys errors) :
    ys = ts.map .leaf ∧ errors = [] := by
  induction ts generalizing ys with
  | nil =>
    cases H
    exact ⟨rfl, rfl⟩
  | cons t ts ih =>
    cases H with
    | leaf H =>
      obtain ⟨rfl, rfl⟩ := ih H
      exact ⟨rfl, rfl⟩

/-- A cut keeps the leaves. -/
theorem leavesAll_eq (H : Cut depth bad above xs ys errors) : leavesAll ys = leavesAll xs := by
  induction H with
  | nil => rfl
  | leaf _ ih => rw [leavesAll, leavesAll, ih]
  | node _ _ _ _ ihc ih => rw [leavesAll, leavesAll, leaves, leaves, ihc, ih]
  | deep _ hleaves _ ih =>
    rw [leavesAll, leavesAll, leaves, leaves, ih, hleaves, leavesAll_map_leaf]
  | bad _ _ _ _ ih => rw [leavesAll, leavesAll, ih]

theorem filled (H : Cut depth bad above xs ys errors) (hxs : Filled xs) : Filled ys := by
  induction H with
  | nil => exact .nil
  | leaf _ ih =>
    cases hxs with | leaf hxs =>
    exact .leaf (ih hxs)
  | node _ _ Hc _ ihc ih =>
    cases hxs with | node hne hcs hxs =>
    exact .node (Hc.leavesAll_eq ▸ hne) (ihc hcs) (ih hxs)
  | @deep _ _ _ _ _ t ts _ _ _ _ ih =>
    cases hxs with | node _ _ hxs =>
    refine .node nofun ?_ (ih hxs)
    induction t :: ts with
    | nil => exact .nil
    | cons u us ihu => exact .leaf ihu
  | bad _ _ _ _ ih =>
    cases hxs with | node hne hcs hxs =>
    exact .node hne hcs (ih hxs)

/-- When nothing is bad the errors are about leaves, in their order. -/
theorem spans_sublist (H : Cut depth (fun _ => False) above xs ys errors) :
    (errors.map SyntaxError.span).Sublist ((leavesAll xs).map Token.span) := by
  induction H with
  | nil => exact .slnil
  | leaf _ ih => exact ih.cons _
  | node _ _ _ _ ihc ih =>
    rw [leavesAll, leaves, List.map_append, List.map_append]
    exact ihc.append ih
  | deep _ hleaves _ ih =>
    rw [leavesAll, leaves, hleaves, List.map_append, List.map_cons, List.map_cons]
    exact .cons_cons _ (ih.trans (List.sublist_append_right _ _))
  | bad _ hbad => exact hbad.elim

end Cut

/-- Nothing in a forest reaches past the depth limit, and so many nodes in it are bad. -/
inductive Within {α : Type} (kind : α → TokenKind) (depth : Nat) (bad : Sketch α → Prop) :
    List NodeKind → List (Sketch α) → Nat → Prop
  | nil {above : List NodeKind} : Within kind depth bad above [] 0
  | leaf {above : List NodeKind} {a : α} {xs : List (Sketch α)} {n : Nat} :
    Within kind depth bad above xs n → Within kind depth bad above (.leaf a :: xs) n
  | node {above : List NodeKind} {k : NodeKind} {cs xs : List (Sketch α)} {m n : Nat} :
    k.reach above (symbols kind cs) ≤ depth → k ∉ NodeKind.frail ∨ ¬bad (.node k cs) →
    Within kind depth bad (k :: above) cs m → Within kind depth bad above xs n →
    Within kind depth bad above (.node k cs :: xs) (m + n)
  | bad {above : List NodeKind} {k : NodeKind} {cs xs : List (Sketch α)} {n : Nat} :
    k ∈ NodeKind.frail → levels above ≤ depth → bad (.node k cs) →
    Within kind depth bad above xs n → Within kind depth bad above (.node k cs :: xs) (n + 1)

/-- What is bad takes up no level. -/
theorem NodeKind.reach_of_frail {k : NodeKind} (hk : k ∈ NodeKind.frail) (above : List NodeKind)
    (word : List Symbol) : k.reach above word = levels above := by
  cases k with
  | pair | elements => rfl
  | _ => exact absurd hk (by decide)

/-- A forest within the limit is left as it is, with an error for each bad node. -/
theorem Cut.eq_of_within {depth n : Nat} {bad : Sketch Token → Prop} {above : List NodeKind}
    {xs ys : List (Sketch Token)} {errors : List SyntaxError}
    (H : Within Token.kind depth bad above xs n) (Hc : Cut depth bad above xs ys errors) :
    ys = xs ∧ errors.length = n := by
  induction H generalizing ys errors with
  | nil =>
    cases Hc
    exact ⟨rfl, rfl⟩
  | leaf _ ih =>
    cases Hc with | leaf Hc =>
    obtain ⟨rfl, hn⟩ := ih Hc
    exact ⟨rfl, hn⟩
  | node hreach hgood _ _ ihc ih =>
    cases Hc with
    | node _ _ Hd Hc =>
      obtain ⟨rfl, hm⟩ := ihc Hd
      obtain ⟨rfl, hn⟩ := ih Hc
      exact ⟨rfl, by rw [List.length_append, hm, hn]⟩
    | deep hdeep => exact absurd hreach (Nat.not_le.2 hdeep)
    | bad hk hb => exact (hgood.elim (· hk) (· hb)).elim
  | bad hk hlevels hb _ ih =>
    cases Hc with
    | node _ hgood => exact (hgood.elim (· hk) (· hb)).elim
    | deep hdeep =>
      rw [reach_of_frail hk] at hdeep
      exact absurd hlevels (Nat.not_le.2 hdeep)
    | bad _ _ _ Hc =>
      obtain ⟨rfl, hn⟩ := ih Hc
      exact ⟨rfl, congrArg (· + 1) hn⟩

/-- Within the limit every error is about a bad node. -/
theorem Cut.exists_concerns {depth n : Nat} {bad : Sketch Token → Prop} {above : List NodeKind}
    {xs ys : List (Sketch Token)} {errors : List SyntaxError}
    (H : Within Token.kind depth bad above xs n) (Hc : Cut depth bad above xs ys errors) :
    ∀ e ∈ errors, ∃ x, bad x ∧ e.Concerns x := by
  induction Hc generalizing n with
  | nil => exact nofun
  | leaf _ ih =>
    cases H with | leaf H =>
    exact ih H
  | node _ hgood _ _ ihc ih =>
    cases H with
    | node _ _ Hc H => exact fun e he => (List.mem_append.1 he).elim (ihc Hc e) (ih H e)
    | bad hk _ hb => exact (hgood.elim (· hk) (· hb)).elim
  | deep hdeep =>
    cases H with
    | node hreach => exact absurd hreach (Nat.not_le.2 hdeep)
    | bad hk hlevels =>
      rw [reach_of_frail hk] at hdeep
      exact absurd hlevels (Nat.not_le.2 hdeep)
  | bad hk hb he _ ih =>
    cases H with
    | node _ hgood => exact (hgood.elim (· hk) (· hb)).elim
    | bad _ _ _ H =>
      intro e' he'
      rcases List.mem_cons.1 he' with rfl | he'
      · exact ⟨_, hb, he⟩
      · exact ih H e' he'

/-- What loses nothing at the limit lies within it. -/
theorem Cut.within {depth : Nat} {above : List NodeKind} {xs ys : List (Sketch Token)}
    (H : Cut depth (fun _ => False) above xs ys []) :
    Within Token.kind depth (fun _ => False) above xs 0 := by
  generalize herrors : ([] : List SyntaxError) = errors at H
  induction H with
  | nil => exact .nil
  | leaf _ ih => exact .leaf (ih herrors)
  | node hreach hgood _ _ ihc ih =>
    obtain ⟨hc, h⟩ := List.append_eq_nil_iff.1 herrors.symm
    exact .node hreach hgood (ihc hc.symm) (ih h.symm)
  | deep => cases herrors
  | bad _ hbad => exact hbad.elim

namespace Within

variable {α β : Type} {kind : α → TokenKind} {depth m n : Nat} {bad : Sketch α → Prop}
  {above : List NodeKind} {xs ys : List (Sketch α)}

theorem append (H : Within kind depth bad above xs m) (H' : Within kind depth bad above ys n) :
    Within kind depth bad above (xs ++ ys) (m + n) := by
  induction H with
  | nil => rwa [Nat.zero_add]
  | leaf _ ih => exact .leaf (ih H')
  | node hreach hgood Hc _ _ ih =>
    rw [Nat.add_assoc]
    exact .node hreach hgood Hc (ih H')
  | bad hk hlevels hb _ ih =>
    rw [Nat.add_right_comm]
    exact .bad hk hlevels hb (ih H')

theorem map_leaf (as : List α) : Within kind depth bad above (as.map .leaf) 0 := by
  induction as with
  | nil => exact .nil
  | cons a as ih => exact .leaf ih

/-- Where nothing is bad there is nothing to count. -/
theorem of_node {k : NodeKind} {cs : List (Sketch α)}
    (H : Within kind depth bad above (.node k cs :: xs) 0) :
    k.reach above (symbols kind cs) ≤ depth ∧ Within kind depth bad (k :: above) cs 0 ∧
      Within kind depth bad above xs 0 := by
  generalize hn : 0 = n at H
  cases H with
  | node hreach _ Hc H =>
    obtain ⟨rfl, rfl⟩ := Nat.add_eq_zero_iff.1 hn.symm
    exact ⟨hreach, Hc, H⟩
  | bad => cases hn

theorem good_of_node {k : NodeKind} {cs : List (Sketch α)}
    (H : Within kind depth bad above (.node k cs :: xs) 0) :
    k ∉ NodeKind.frail ∨ ¬bad (.node k cs) := by
  generalize hn : 0 = n at H
  cases H with
  | node _ hgood _ _ => exact hgood
  | bad => cases hn

theorem of_append (H : Within kind depth bad above (xs ++ ys) 0) :
    Within kind depth bad above xs 0 ∧ Within kind depth bad above ys 0 := by
  induction xs with
  | nil => exact ⟨.nil, H⟩
  | cons x xs ih =>
    cases x with
    | leaf a =>
      cases H with | leaf H =>
      exact ⟨.leaf (ih H).1, (ih H).2⟩
    | node k cs =>
      obtain ⟨hreach, Hc, Hx⟩ := H.of_node
      exact ⟨.node hreach H.good_of_node Hc (ih Hx).1, (ih Hx).2⟩

/-- What stands at the leaves does not matter beyond its kind. -/
theorem mapAll_iff {f : β → α} {xs : List (Sketch β)} :
    Within kind depth (fun _ => False) above (mapAll f xs) 0 ↔
      Within (kind ∘ f) depth (fun _ => False) above xs 0 := by
  induction xs using forest_induction generalizing above with
  | nil => exact ⟨fun _ => .nil, fun _ => .nil⟩
  | leaf a xs ih =>
    constructor
    · rintro (_ | H)
      exact .leaf (ih.1 H)
    · rintro (_ | H)
      exact .leaf (ih.2 H)
  | node k cs xs ihc ih =>
    constructor
    · intro H
      obtain ⟨hreach, Hc, H⟩ := H.of_node
      rw [symbols_mapAll] at hreach
      exact .node hreach (.inr id) (ihc.1 Hc) (ih.1 H)
    · intro H
      obtain ⟨hreach, Hc, H⟩ := H.of_node
      rw [← symbols_mapAll] at hreach
      exact .node hreach (.inr id) (ihc.2 Hc) (ih.2 H)

/-- What follows the grammar is not bad when nothing bad does. -/
theorem of_regular (H : Within kind depth (fun _ => False) above xs 0)
    (hxs : Regular kind (fun _ => False) xs)
    (hbad : ∀ k cs, bad (.node k cs) → symbols kind cs ∉ k.whole.matches') :
    Within kind depth bad above xs 0 := by
  induction xs using forest_induction generalizing above with
  | nil => exact .nil
  | leaf a xs ih =>
    cases H with | leaf H =>
    exact .leaf (ih H hxs.of_leaf)
  | node k cs xs ihc ih =>
    obtain ⟨hreach, Hc, H⟩ := H.of_node
    cases hxs with
    | node hw hcs hxs =>
      exact .node hreach (.inr fun hb => hbad k cs hb hw) (ihc Hc hcs) (ih H hxs)
    | bad _ hb => exact hb.elim

end Within

end Blueprint
