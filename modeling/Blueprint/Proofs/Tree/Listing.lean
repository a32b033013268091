import Blueprint.Proofs.Tree.Extent

/-!
# Listings of a tree

`Cursor.listing` lists what is at a node and below it by plain recursion, each element in front of
those below it and with the nodes that were passed on the way down to it. The walks with a stack come
to the same: the one over elements (`outline_eq_listing`) and the one over nodes
(`descendants_eq_listing`).
-/

namespace Blueprint

open Element

namespace Cursor

namespace Child

/-- An element as a child, below the nodes `above`. -/
def ofElement (above : List Node) : Element → Child
  | .token t => .token t
  | .node i k s cs => .node ⟨⟨i, k, s, cs⟩, above⟩

def toElement : Child → Element
  | .token t => .token t
  | .node c => c.node.toElement

def node? : Child → Option Cursor
  | .token _ => none
  | .node c => some c

def token? : Child → Option Token
  | .token t => some t
  | .node _ => none

theorem node?_eq_some_iff {child : Child} {c : Cursor} : child.node? = some c ↔ child = .node c := by
  cases child <;> simp [node?]

theorem token?_eq_some_iff {child : Child} {t : Token} :
    child.token? = some t ↔ child = .token t := by
  cases child <;> simp [token?]

/-- Children differ when the nodes among them do and the tokens do. -/
theorem nodup_of_filterMap {children : List Child} (hnodes : (children.filterMap node?).Nodup)
    (htokens : (children.filterMap token?).Nodup) : children.Nodup := by
  induction children with
  | nil => exact .nil
  | cons child children ih =>
    cases child with
    | node c =>
      obtain ⟨hc, hnodes⟩ := List.nodup_cons.1 hnodes
      exact .cons (fun h => hc (List.mem_filterMap.2 ⟨_, h, rfl⟩)) (ih hnodes htokens)
    | token t =>
      obtain ⟨ht, htokens⟩ := List.nodup_cons.1 htokens
      exact .cons (fun h => ht (List.mem_filterMap.2 ⟨_, h, rfl⟩)) (ih hnodes htokens)

end Child

/-- An element that a walk comes to. -/
structure Visit where
  child : Child
  /-- The nodes that were passed on the way down to it, the last one first. -/
  path : List Cursor

mutual
/-- An element and what is below it, after the nodes of `path` were passed. -/
def listElement (path : List Cursor) (above : List Node) : Element → List Visit
  | .token t => [⟨.token t, path⟩]
  | .node i k s cs =>
    ⟨.node ⟨⟨i, k, s, cs⟩, above⟩, path⟩ ::
      listElements (⟨⟨i, k, s, cs⟩, above⟩ :: path) (⟨i, k, s, cs⟩ :: above) cs

def listElements (path : List Cursor) (above : List Node) : List Element → List Visit
  | [] => []
  | e :: es => listElement path above e ++ listElements path above es
end

/-- What is at the node and below it, each with the nodes from there up to this one. -/
def listing (c : Cursor) : List Visit := listElement [] c.above c.node.toElement

theorem listing_eq_cons (c : Cursor) :
    c.listing = ⟨.node c, []⟩ :: listElements [c] (c.node :: c.above) c.node.children := rfl

theorem children_eq (c : Cursor) :
    c.children = c.node.children.map (Child.ofElement (c.node :: c.above)) := by
  rw [children]
  congr 1

/-! ### Three ways to read a listing -/

section
variable (path : List Cursor) (above : List Node) (es : List Element)

/-- With its depth for the way to it, an element is listed where an outline has it. -/
theorem map_listElements :
    (listElements path above es).map (fun v => (v.path.length, v.child.toElement)) =
      preorderAll path.length es := by
  induction es using forest_induction generalizing path above with
  | nil => rfl
  | token t es ih => exact congrArg (_ :: ·) (ih path above)
  | node i k s cs es ihc ih =>
    rw [listElements, listElement, List.map_append, List.map_cons, ihc, ih]
    rfl

theorem filterMap_node?_listElements :
    (listElements path above es).filterMap (·.child.node?) = ofElements above es := by
  induction es using forest_induction generalizing path above with
  | nil => rfl
  | token t es ih => exact ih path above
  | node i k s cs es ihc ih =>
    rw [listElements, List.filterMap_append, ih]
    exact congrArg (_ :: · ++ ofElements above es) (ihc _ _)

theorem filterMap_token?_listElements :
    (listElements path above es).filterMap (·.child.token?) = leavesAll es := by
  induction es using forest_induction generalizing path above with
  | nil => rfl
  | token t es ih => exact congrArg (t :: ·) (ih path above)
  | node i k s cs es ihc ih =>
    rw [listElements, List.filterMap_append, ih]
    exact congrArg (· ++ leavesAll es) (ihc _ _)

end

/-- The walk over elements lists them in the order of the recursion, at the depth that is the number
of nodes passed. -/
theorem outline_eq_listing (c : Cursor) :
    c.node.toElement.outline = c.listing.map fun v => (v.path.length, v.child.toElement) := by
  rw [outline_eq_preorder, listing_eq_cons, List.map_cons, map_listElements]
  rfl

/-- A walk over nodes lists what waits on the stack one after the other, each with the nodes below
it. -/
theorem walkNodes_eq_flatMap (stack : List Cursor) :
    walkNodes stack = stack.flatMap fun c => ofElement c.above c.node.toElement := by
  have hchildren (above : List Node) (es : List Element) :
      (es.filterMap (atNode? above)).flatMap (fun c => ofElement c.above c.node.toElement) =
        ofElements above es := by
    induction es with
    | nil => rfl
    | cons e es ih =>
      cases e with
      | token => exact ih
      | node =>
        simp only [List.filterMap_cons, atNode?, List.flatMap_cons, ih]
        rfl
  fun_induction walkNodes stack with
  | case1 => rfl
  | case2 c rest ih =>
    rw [ih, List.flatMap_append, childNodes_eq, hchildren, List.flatMap_cons]
    rfl

theorem descendants_eq (c : Cursor) : c.descendants = ofElement c.above c.node.toElement := by
  rw [descendants, walkNodes_eq_flatMap, List.flatMap_singleton]

/-- The walk over nodes lists those of the recursion. -/
theorem descendants_eq_listing (c : Cursor) :
    c.descendants = c.listing.filterMap (·.child.node?) := by
  rw [descendants_eq]
  exact congrArg (c :: ·) (filterMap_node?_listElements _ _ _).symm

theorem descendantTokens_eq_listing (c : Cursor) :
    c.descendantTokens = c.listing.filterMap (·.child.token?) :=
  (filterMap_token?_listElements _ _ _).symm

/-! ### The way to an element -/

/-- The nodes passed at first are passed on the way to every element. -/
theorem suffix_path_of_mem_listElements {path : List Cursor} {above : List Node} {es : List Element}
    {v : Visit} (hv : v ∈ listElements path above es) : path <:+ v.path := by
  induction es using forest_induction generalizing path above with
  | nil => cases hv
  | token t es ih =>
    rcases List.mem_cons.1 hv with rfl | hv
    · exact List.suffix_refl _
    · exact ih hv
  | node i k s cs es ihc ih =>
    rcases List.mem_append.1 hv with hv | hv
    · rcases List.mem_cons.1 hv with rfl | hv
      · exact List.suffix_refl _
      · exact (List.suffix_cons _ _).trans (ihc hv)
    · exact ih hv

/-- Below the top of a listing, an element is a child of the node that was passed last, and the
nodes passed are those above it. -/
theorem exists_parent_of_mem_listElements {p : Cursor} {path rest : List Cursor} {es : List Element}
    {v : Visit} (hv : v ∈ listElements (p :: path) (p.node :: p.above) es)
    (hp : p.ancestors = path ++ rest)
    (hes : ∀ e ∈ es, Child.ofElement (p.node :: p.above) e ∈ p.children) :
    ∃ c ∈ p :: ofElements (p.node :: p.above) es, ∃ path', v.path = c :: path' ∧
      c.ancestors = path' ++ rest ∧ v.child ∈ c.children := by
  -- `es` loses its front in the induction, so `hes` cannot say that it is all of the children
  induction es using forest_induction generalizing p path with
  | nil => cases hv
  | token t es ih =>
    rcases List.mem_cons.1 hv with rfl | hv
    · exact ⟨p, .head _, path, rfl, hp, hes _ (.head _)⟩
    · exact ih hv hp fun e he => hes e (.tail _ he)
  | node i k s cs es ihc ih =>
    rcases List.mem_append.1 hv with hv | hv
    · rcases List.mem_cons.1 hv with rfl | hv
      · exact ⟨p, .head _, path, rfl, hp, hes _ (.head _)⟩
      · let d : Cursor := ⟨⟨i, k, s, cs⟩, p.node :: p.above⟩
        have hbelow : v ∈ listElements (d :: p :: path) (d.node :: d.above) cs := hv
        obtain ⟨c, hc, h⟩ := ihc hbelow (congrArg (p :: ·) hp) fun e he => by
          rw [children_eq]
          exact List.mem_map_of_mem he
        exact ⟨c, .tail _ (List.mem_append_left _ hc), h⟩
    · obtain ⟨c, hc, h⟩ := ih hv hp fun e he => hes e (.tail _ he)
      refine ⟨c, ?_, h⟩
      exact (List.mem_cons.1 hc).elim (· ▸ .head _) fun hc => .tail _ (List.mem_append_right _ hc)

/-- The nodes that are passed in a forest are nodes of it. -/
theorem mem_ofElements_of_mem_path {path : List Cursor} {above : List Node} {es : List Element}
    {v : Visit} {a : Cursor} (hv : v ∈ listElements path above es) (ha : a ∈ v.path) :
    a ∈ path ∨ a ∈ ofElements above es := by
  induction es using forest_induction generalizing path above with
  | nil => cases hv
  | token t es ih =>
    rcases List.mem_cons.1 hv with rfl | hv
    · exact .inl ha
    · exact ih hv
  | node i k s cs es ihc ih =>
    rw [ofElements, ofElement]
    rcases List.mem_append.1 hv with hv | hv
    · rcases List.mem_cons.1 hv with rfl | hv
      · exact .inl ha
      · rcases ihc hv with h | h
        · exact (List.mem_cons.1 h).elim (· ▸ .inr (.head _)) .inl
        · exact .inr (List.mem_append_left _ (.tail _ h))
    · exact (ih hv).imp_right (List.mem_append_right _)

/-- What stands above a node has less above it. -/
theorem length_ancestors_lt {c a : Cursor} (ha : a ∈ c.ancestors) :
    a.ancestors.length < c.ancestors.length := by
  obtain ⟨node, above⟩ := c
  change a ∈ upward above at ha
  change a.ancestors.length < (upward above).length
  induction above with
  | nil => cases ha
  | cons p ps ih =>
    rcases List.mem_cons.1 ha with rfl | ha
    · exact Nat.lt_succ_self _
    · exact (ih ha).trans (Nat.lt_succ_self _)

section
variable {c : Cursor} {v : Visit}

theorem descendants_eq_ofElements : c.descendants = ofElements c.above [c.node.toElement] :=
  (descendants_eq c).trans (List.append_nil _).symm

theorem listing_eq_listElements : c.listing = listElements [] c.above [c.node.toElement] :=
  (List.append_nil _).symm

/-- No node is both at or below a node and above it. -/
theorem not_mem_ancestors {a : Cursor} (ha : a ∈ c.descendants) : a ∉ c.ancestors := fun h => by
  rw [descendants_eq_ofElements] at ha
  exact absurd (length_ancestors_lt h) (Nat.not_lt.2 (upward_suffix_ancestors ha).length_le)

/-- The nodes below a node of a forest are a part of those of the forest. -/
theorem isInfix_descendants {above : List Node} {es : List Element} (hc : c ∈ ofElements above es) :
    c.descendants <:+: ofElements above es := by
  rw [descendants_eq]
  induction es using forest_induction generalizing above with
  | nil => cases hc
  | token t es ih => exact ih hc
  | node i k s cs es ihc ih =>
    rw [ofElements]
    rcases List.mem_append.1 hc with hc | hc
    · refine List.IsInfix.trans ?_ (List.prefix_append _ _).isInfix
      rcases List.mem_cons.1 hc with rfl | hc
      · exact List.infix_refl _
      · exact (ihc hc).trans (List.suffix_cons _ _).isInfix
    · exact (ih hc).trans (List.suffix_append _ _).isInfix

/-- An element of a listing is the node that it starts at, or a child of the node that was passed
last. The nodes passed are those above it, up to the first. -/
theorem exists_parent_of_mem_listing (hv : v ∈ c.listing) :
    v = ⟨.node c, []⟩ ∨ ∃ d ∈ c.descendants, ∃ path, v.path = d :: path ∧
      d.ancestors = path ++ c.ancestors ∧ v.child ∈ d.children := by
  rw [listing_eq_cons] at hv
  refine (List.mem_cons.1 hv).imp_right fun hv => ?_
  rw [descendants_eq]
  exact exists_parent_of_mem_listElements hv rfl fun e he => by
    rw [children_eq]
    exact List.mem_map_of_mem he

/-- The way to a node goes on with what is above the first node to all that is above this one. -/
theorem ancestors_eq_path_append {d : Cursor} (hv : v ∈ c.listing) (hd : v.child = .node d) :
    d.ancestors = v.path ++ c.ancestors := by
  rcases exists_parent_of_mem_listing hv with rfl | ⟨p, -, path, hpath, hp, hchild⟩
  · cases hd
    rfl
  · rw [hpath, List.cons_append, ← hp]
    rw [hd, children_eq, List.mem_map] at hchild
    obtain ⟨e, -, he⟩ := hchild
    cases e with
    | token => cases he
    | node =>
      cases he
      rfl

/-- A token is a child of the node that was passed last. -/
theorem exists_owner_of_mem_listing {t : Token} (hv : v ∈ c.listing) (ht : v.child = .token t) :
    ∃ d ∈ c.descendants, t ∈ d.childTokens ∧ d :: d.ancestors = v.path ++ c.ancestors := by
  rcases exists_parent_of_mem_listing hv with rfl | ⟨d, hd, path, hpath, hancestors, hchild⟩
  · cases ht
  · refine ⟨d, hd, List.mem_filterMap.2 ⟨v.child, hchild, ht ▸ rfl⟩, ?_⟩
    rw [hpath, List.cons_append, ← hancestors]

/-- The nodes passed are those above that are not above the first node. -/
theorem mem_path_iff {a : Cursor} (hv : v ∈ c.listing) :
    a ∈ v.path ↔ a ∈ v.path ++ c.ancestors ∧ a ∈ c.descendants := by
  refine ⟨fun ha => ⟨List.mem_append_left _ ha, ?_⟩, fun ⟨h, ha⟩ => ?_⟩
  · rw [listing_eq_listElements] at hv
    rw [descendants_eq_ofElements]
    exact (mem_ofElements_of_mem_path hv ha).resolve_left nofun
  · exact (List.mem_append.1 h).resolve_right (not_mem_ancestors ha)

/-- The elements of a listing differ when its nodes do and its tokens do. -/
theorem nodup_listing (hnodes : c.descendants.Nodup) (htokens : c.descendantTokens.Nodup) :
    (c.listing.map Visit.child).Nodup := by
  refine Child.nodup_of_filterMap ?_ ?_
  · rw [List.filterMap_map]
    exact descendants_eq_listing c ▸ hnodes
  · rw [List.filterMap_map]
    exact descendantTokens_eq_listing c ▸ htokens

end

end Cursor

end Blueprint
