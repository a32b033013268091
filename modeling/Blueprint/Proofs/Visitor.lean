import Blueprint.Visitor
import Blueprint.Proofs.Tree.Listing
import Blueprint.Proofs.Tree.Lossless
import Blueprint.Proofs.Tree.Owners

/-!
# What a visitor is called for

A visitor with methods of their own for some kinds is called for the elements of a listing that have
no node above them at which it stops (`Visitor.walk_overriding`). In a tree without repetitions that
tells for every element which call there is for it, if any (`Visitor.dispatches_of_nodup`).
-/

namespace Blueprint

open Cursor Element

namespace Visitor

/-- What a method of a kind does below its node. -/
inductive Descent where
  | descend
  | stop
deriving DecidableEq

/-- A call of a method of a visitor. -/
inductive Event where
  | token (t : Token)
  /-- A node in the method for every kind without its own. -/
  | node (c : Cursor)
  /-- A node in the method of the kind `k`. -/
  | kind (k : NodeKind) (c : Cursor)
deriving DecidableEq

/-- The element that a method is called with. -/
def Event.child : Event → Child
  | .token t => .token t
  | .node c => .node c
  | .kind _ c => .node c

variable {σ : Type} (own : NodeKind → Option Descent) (act : Event → σ → σ)

/-- The visitor with methods of their own for the kinds that `own` has an entry for. Every method
acts, and walks on below its node unless `own` says that it stops there. -/
def overriding : Visitor σ where
  onToken t := act (.token t)
  onNode c walkChildren s := walkChildren (act (.node c) s)
  onKind k := (own k).map fun
    | .descend => fun c walkChildren s => walkChildren (act (.kind k c) s)
    | .stop => fun c _ s => act (.kind k c) s

/-- The calls of a visitor that starts at a node, in their order. -/
def log (c : Cursor) : List Event := (overriding own fun e es => es ++ [e]).walk c []

/-- The call for an element. -/
def event : Child → Event
  | .token t => .token t
  | .node c => if (own c.kind).isSome then .kind c.kind c else .node c

/-- No node above the element is one to stop at. -/
def reached (v : Visit) : Bool := v.path.all fun a => own a.kind ≠ some .stop

/-- Among the nodes above an element there is one at or below `c` to stop at. -/
def Pruned (c : Cursor) (above : List Cursor) : Prop :=
  ∃ a ∈ above, a ∈ c.descendants ∧ own a.kind = some .stop

instance {c : Cursor} {above : List Cursor} : Decidable (Pruned own c above) :=
  inferInstanceAs (Decidable (∃ a ∈ above, a ∈ c.descendants ∧ own a.kind = some .stop))

/-- The calls of a visitor that starts at `c`. They are what happens on any state. There is one for
every element that is reached, in the order of a listing, which has each node at or below `c` and
each token below it. An element is reached when there is no node between it and `c` to stop at.
Nodes are in the method of their kind if it is there and in the one for all kinds if not. -/
structure Dispatches (c : Cursor) : Prop where
  runs : ∀ {σ : Type} (act : Event → σ → σ) (s : σ),
    (overriding own act).walk c s = (log own c).foldl (fun s e => act e s) s
  order : log own c = (c.listing.filter (reached own)).map (event own ·.child)
  preorder : c.listing.map (fun v => (v.path.length, v.child.toElement)) =
    c.node.toElement.preorder 0
  nodes : c.listing.filterMap (·.child.node?) = c.descendants
  tokens : c.listing.filterMap (·.child.token?) = c.descendantTokens
  node : ∀ d ∈ c.descendants, (log own c).filter (·.child = .node d) =
    if Pruned own c d.ancestors then []
    else if (own d.kind).isSome then [.kind d.kind d] else [.node d]
  token : ∀ d ∈ c.descendants, ∀ t ∈ d.childTokens, (log own c).filter (·.child = .token t) =
    if Pruned own c (d :: d.ancestors) then [] else [.token t]
  plain_node : (∀ k, own k = none) → ∀ d ∈ c.descendants, (log own c).count (.node d) = 1
  plain_token : (∀ k, own k = none) → ∀ t ∈ c.descendantTokens, (log own c).count (.token t) = 1

/-! ### One node -/

theorem handler_overriding (c : Cursor) (walkChildren : σ → σ) (s : σ) :
    (overriding own act).handler c.kind c walkChildren s =
      if own c.kind = some .stop then act (event own (.node c)) s
      else walkChildren (act (event own (.node c)) s) := by
  cases h : own c.kind with
  | none => simp [handler, overriding, event, h]
  | some descent => cases descent <;> simp [handler, overriding, event, h]

variable {own} in
/-- What is below a node to stop at is not reached. -/
theorem filter_reached_eq_nil {path : List Cursor} {above : List Node} {es : List Element}
    {a : Cursor} (ha : a ∈ path) (hstop : own a.kind = some .stop) :
    (listElements path above es).filter (reached own) = [] := by
  refine List.filter_eq_nil_iff.2 fun v hv hreached => ?_
  have h := List.all_eq_true.1 hreached a ((suffix_path_of_mem_listElements hv).mem ha)
  exact of_decide_eq_true h hstop

/-! ### The whole walk -/

/-- A walk over a forest acts at the elements that are reached, in the order of a listing. -/
theorem walkElements_overriding (path : List Cursor) (above : List Node) (es : List Element) (s : σ)
    (hpath : ∀ a ∈ path, own a.kind ≠ some .stop) :
    (overriding own act).walkElements above es s =
      (((listElements path above es).filter (reached own)).map (event own ·.child)).foldl
        (fun s e => act e s) s := by
  have hreached (child : Child) : reached own ⟨child, path⟩ = true :=
    List.all_eq_true.2 fun a ha => decide_eq_true (hpath a ha)
  induction es using forest_induction generalizing path above s with
  | nil => rfl
  | token t es ih =>
    rw [listElements, listElement, List.singleton_append, List.filter_cons_of_pos (hreached _),
      walkElements, ih path above _ hpath hreached]
    rfl
  | node i k sp cs es ihc ih =>
    let c : Cursor := ⟨⟨i, k, sp, cs⟩, above⟩
    have hstep : (overriding own act).walkElement above (.node i k sp cs) s =
        (((listElements (c :: path) (c.node :: above) cs).filter (reached own)).map
          (event own ·.child)).foldl (fun s e => act e s) (act (event own (.node c)) s) := by
      rw [walkElement]
      refine (handler_overriding own act c _ s).trans ?_
      split
      · next hstop =>
        -- the listing goes on below the node, but nothing there is reached
        rw [filter_reached_eq_nil (.head _) hstop]
        rfl
      · next hstop =>
        have hpath' : ∀ a ∈ c :: path, own a.kind ≠ some .stop :=
          List.forall_mem_cons.2 ⟨hstop, hpath⟩
        exact ihc _ _ _ hpath' fun child =>
          List.all_eq_true.2 fun a ha => decide_eq_true (hpath' a ha)
    rw [walkElements, hstep, ih path above _ hpath hreached, listElements, listElement,
      List.cons_append, List.filter_cons_of_pos (hreached _), List.filter_append, List.map_cons,
      List.map_append, List.foldl_cons, List.foldl_append]

theorem walk_overriding (c : Cursor) (s : σ) :
    (overriding own act).walk c s =
      ((c.listing.filter (reached own)).map (event own ·.child)).foldl (fun s e => act e s) s := by
  have h := walkElements_overriding own act [] c.above [c.node.toElement] s nofun
  rw [listElements, listElements, List.append_nil] at h
  exact h

theorem log_eq (c : Cursor) :
    log own c = (c.listing.filter (reached own)).map (event own ·.child) := by
  rw [log, walk_overriding, List.foldl_append_eq_append, ← List.flatMap_def, List.flatMap_singleton',
    List.nil_append]

/-! ### One element -/

section
variable {own} {c : Cursor} {v : Visit}

theorem child_event (child : Child) : (event own child).child = child := by
  cases child with
  | token => rfl
  | node c =>
    rw [event]
    split <;> rfl

/-- An element is reached when there is no node to stop at above it, up to the first node. -/
theorem reached_iff (hv : v ∈ c.listing) :
    reached own v = true ↔ ¬Pruned own c (v.path ++ c.ancestors) := by
  rw [reached, List.all_eq_true]
  constructor
  · rintro h ⟨a, ha, hbelow, hstop⟩
    exact of_decide_eq_true (h a ((mem_path_iff hv).2 ⟨ha, hbelow⟩)) hstop
  · intro h a ha
    obtain ⟨habove, hbelow⟩ := (mem_path_iff hv).1 ha
    exact decide_eq_true fun hstop => h ⟨a, habove, hbelow, hstop⟩

theorem not_pruned (hown : ∀ k, own k = none) (above : List Cursor) : ¬Pruned own c above := by
  rintro ⟨a, -, -, hstop⟩
  cases (hown a.kind).symm.trans hstop

/-- A call that is the only one for its element is made once. -/
theorem count_log {e : Event} (h : (log own c).filter (·.child = e.child) = [e]) :
    (log own c).count e = 1 := by
  rw [← List.count_filter (p := fun f => decide (f.child = e.child)) (decide_eq_true rfl), h]
  exact List.count_singleton_self

section
variable (hnodup : (c.listing.map Visit.child).Nodup)
include hnodup

/-- The calls for an element that is listed once. -/
theorem filter_log (hv : v ∈ c.listing) {above : List Cursor}
    (habove : above = v.path ++ c.ancestors) :
    (log own c).filter (·.child = v.child) =
      if Pruned own c above then [] else [event own v.child] := by
  obtain ⟨front, back, hsplit⟩ := List.append_of_mem hv
  rw [hsplit, List.map_append, List.map_cons] at hnodup
  obtain ⟨-, hback, hfront⟩ := List.nodup_append.1 hnodup
  have hother {vs : List Visit} (h : ∀ w ∈ vs, w.child ≠ v.child) :
      ((vs.filter (reached own)).map (event own ·.child)).filter (·.child = v.child) = [] := by
    refine List.filter_eq_nil_iff.2 fun e he => ?_
    obtain ⟨w, hw, rfl⟩ := List.mem_map.1 he
    rw [child_event, decide_eq_true_iff]
    exact h w (List.mem_filter.1 hw).1
  rw [log_eq, hsplit, List.filter_append, List.map_append, List.filter_append,
    hother fun w hw => hfront _ (List.mem_map_of_mem hw) _ (.head _), List.nil_append,
    List.filter_cons]
  have hrest := hother fun w hw h => (List.nodup_cons.1 hback).1 (h ▸ List.mem_map_of_mem hw)
  split
  · next hreached =>
    have hself : decide ((event own v.child).child = v.child) = true :=
      decide_eq_true (child_event _)
    rw [List.map_cons, List.filter_cons, if_pos hself, hrest, habove,
      if_neg ((reached_iff hv).1 hreached)]
  · next hreached =>
    rw [hrest, habove, if_pos (not_not.1 (mt (reached_iff hv).2 hreached))]

theorem filter_log_node {d : Cursor} (hd : d ∈ c.descendants) :
    (log own c).filter (·.child = .node d) =
      if Pruned own c d.ancestors then [] else [event own (.node d)] := by
  rw [descendants_eq_listing, List.mem_filterMap] at hd
  obtain ⟨v, hv, hchild⟩ := hd
  rw [Child.node?_eq_some_iff] at hchild
  rw [← hchild]
  exact filter_log hnodup hv (ancestors_eq_path_append hv hchild)

theorem exists_filter_log_token {t : Token} (ht : t ∈ c.descendantTokens) :
    ∃ d ∈ c.descendants, t ∈ d.childTokens ∧ (log own c).filter (·.child = .token t) =
      if Pruned own c (d :: d.ancestors) then [] else [.token t] := by
  rw [descendantTokens_eq_listing, List.mem_filterMap] at ht
  obtain ⟨v, hv, hchild⟩ := ht
  rw [Child.token?_eq_some_iff] at hchild
  obtain ⟨d, hd, htd, habove⟩ := exists_owner_of_mem_listing hv hchild
  have h : (log own c).filter (·.child = v.child) = _ := filter_log hnodup hv habove
  rw [hchild] at h
  exact ⟨d, hd, htd, h⟩

end

/-- From a node without repetitions below it, a visitor is called as it should be. -/
theorem dispatches_of_nodup (hnodes : c.descendants.Nodup) (htokens : c.descendantTokens.Nodup)
    (howner : ∀ t, ∀ d ∈ c.descendants, ∀ e ∈ c.descendants,
      t ∈ d.childTokens → t ∈ e.childTokens → d = e) : Dispatches own c := by
  have hnodup := nodup_listing hnodes htokens
  constructor
  case runs =>
    intro σ act s
    rw [walk_overriding, log_eq]
  case order => exact log_eq own c
  case preorder => rw [← outline_eq_preorder, outline_eq_listing]
  case nodes => exact (descendants_eq_listing c).symm
  case tokens => exact (descendantTokens_eq_listing c).symm
  case node =>
    intro d hd
    rw [filter_log_node hnodup hd, event]
    split <;> [rfl; split <;> rfl]
  case token =>
    intro d hd t ht
    have hbelow : t ∈ c.descendantTokens := by
      rw [descendants_eq_ofElements] at hd
      have h := (isInfix_descendantTokens hd).mem (mem_descendantTokens ht)
      rwa [leavesAll, leavesAll, List.append_nil] at h
    obtain ⟨e, he, hte, hfilter⟩ := exists_filter_log_token hnodup hbelow
    cases howner t d hd e he ht hte
    exact hfilter
  case plain_node =>
    intro hown d hd
    refine count_log ((filter_log_node hnodup hd).trans ?_)
    rw [if_neg (not_pruned hown _), event, hown]
    rfl
  case plain_token =>
    intro hown t ht
    obtain ⟨d, -, -, hfilter⟩ := exists_filter_log_token hnodup ht
    exact count_log (hfilter.trans (if_neg (not_pruned hown _)))

end

end Visitor

/-- Whatever the limits are, a visitor is called as it should be from any node of the tree of a
text. -/
theorem parse_dispatches (source : String) (limits : Limits)
    (own : NodeKind → Option Visitor.Descent) {c : Cursor}
    (hc : c ∈ (parse source limits).tree.cursors) : Visitor.Dispatches own c := by
  have hids : (idsAll [(parse source limits).tree.root.toElement]).Nodup := by
    rw [idsAll, idsAll, List.append_nil]
    exact nodup_ids_parse source limits
  have hindex : ((leavesAll [(parse source limits).tree.root.toElement]).map Token.index).Nodup := by
    rw [leavesAll, leavesAll, List.append_nil, leaves_parse]
    exact nodup_index_tokenize source
  rw [Tree.cursors_eq_ofElements] at hc
  have hsub {d : Cursor} (hd : d ∈ c.descendants) := (isInfix_descendants hc).mem hd
  refine Visitor.dispatches_of_nodup ?_ ?_ fun t d hd e he htd hte => ?_
  · refine (isInfix_descendants hc).sublist.nodup (List.Nodup.of_map Cursor.id ?_)
    rwa [map_id_ofElements]
  · exact (isInfix_descendantTokens hc).sublist.nodup (hindex.of_map _)
  · exact eq_of_mem_childTokens rfl hids hindex (hsub hd) (hsub he) htd hte

/-- A visitor that stops at pairs, in a module with a pair inside a pair. -/
theorem parse_dispatches_pairs :
    ∃ c ∈ (parse "m { a: { b: 1 }, c: 2 }" ⟨4, 50⟩).tree.cursors, c.kind = .members ∧
      Visitor.Dispatches (fun k => if k = .pair then some .stop else none) c := by
  obtain ⟨c, hc, hkind⟩ :
      ∃ c ∈ (parse "m { a: { b: 1 }, c: 2 }" ⟨4, 50⟩).tree.cursors, c.kind = .members := by
    decide +kernel
  exact ⟨c, hc, hkind, parse_dispatches _ _ _ hc⟩

end Blueprint
