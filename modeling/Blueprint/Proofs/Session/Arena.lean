import Blueprint.Session
import Blueprint.Proofs.Grammar.State
import Blueprint.Proofs.Tree.Owners

/-!
# The nodes of a session

Open nodes lie in each other, and what is emitted goes into the innermost. `Session.forest` holds
all nodes of a session, open or not. Attaching an element adds its tokens and its nodes to those
that are there (`exists_attach`), and closing a node changes neither (`exists_finish`).
-/

namespace Blueprint

open Element

namespace Session

/-- Open nodes, the innermost first, each in the one around it. The children `inner` come last in
the innermost. The range of a node is not known while it is open. -/
def nest : List Frame → List Element → List Element
  | [], inner => inner
  | f :: fs, inner => nest fs [.node f.id f.kind ⟨0, 0, 0, 0⟩ (f.children ++ inner)]

/-- All nodes: the first one if it is finished, those that stand alone and those that are open. -/
def forest (s : Session) : List Element :=
  s.root.toList.map Node.toElement ++ s.alone ++ nest s.frames []

/-- Every node at its place. -/
def nodes (s : Session) : List Cursor := Cursor.ofElements [] s.forest

/-- The number of the node that the token with a given index is a child of. -/
def ownerOf? (s : Session) (index : Nat) : Option Nat := ownerAll? s.forest index

/-- The place of the first token that no node holds. -/
def pos (s : Session) : Nat := (s.state.unattached.headD s.state.eof).index

/-- There is a node for tokens to go to, and no token stands alone. -/
structure Rooted (s : Session) : Prop where
  root : s.frames = [] → s.root.isSome = true
  alone : s.alone.filterMap asToken? = []

theorem Rooted.withState {s : Session} (H : s.Rooted) (u : State) :
    ({ s with state := u } : Session).Rooted := ⟨H.root, H.alone⟩

/-- While a node is open, tokens go to it. -/
theorem Rooted.of_open {s : Session} {f : Frame} {fs : List Frame} (hframes : s.frames = f :: fs)
    (halone : s.alone.filterMap asToken? = []) : s.Rooted :=
  ⟨fun h => absurd (hframes.symm.trans h) (List.cons_ne_nil _ _), halone⟩

/-- From `s` to `t` nothing happened but that the nodes got `es`. -/
structure Gains (s : Session) (es : List Element) (t : Session) : Prop where
  limits : t.limits = s.limits
  depth : t.depth = s.depth
  state : t.state = s.state
  rooted : t.Rooted
  leaves : (leavesAll t.forest).Perm (leavesAll s.forest ++ leavesAll es)
  ids : (idsAll t.forest).Perm (idsAll s.forest ++ idsAll es)

section
variable {s t u : Session} {es fs : List Element}

theorem leavesAll_nest (fs : List Frame) (inner : List Element) :
    leavesAll (nest fs inner) = leavesAll (nest fs []) ++ leavesAll inner := by
  induction fs generalizing inner with
  | nil => rfl
  | cons f fs ih =>
    rw [nest, ih, nest, ih [_]]
    simp only [leavesAll, leaves, leavesAll_append, List.append_nil, List.append_assoc]

theorem idsAll_nest (fs : List Frame) (inner : List Element) :
    idsAll (nest fs inner) = idsAll (nest fs []) ++ idsAll inner := by
  induction fs generalizing inner with
  | nil => rfl
  | cons f fs ih =>
    rw [nest, ih, nest, ih [_]]
    simp only [idsAll, ids, idsAll_append, List.append_nil, List.append_assoc, List.cons_append]

theorem leavesAll_forest (s : Session) :
    leavesAll s.forest = leavesAll (s.root.toList.map Node.toElement) ++ leavesAll s.alone ++
      leavesAll (nest s.frames []) := by
  rw [forest, leavesAll_append, leavesAll_append]

theorem idsAll_forest (s : Session) :
    idsAll s.forest = idsAll (s.root.toList.map Node.toElement) ++ idsAll s.alone ++
      idsAll (nest s.frames []) := by
  rw [forest, idsAll_append, idsAll_append]

/-- A node that is just started holds no token. -/
theorem leavesAll_forest_open (s : Session) (id : Nat) (kind : NodeKind) :
    leavesAll ({ s with frames := ⟨id, kind, []⟩ :: s.frames } : Session).forest =
      leavesAll s.forest := by
  simp [leavesAll_forest, nest, leavesAll_nest s.frames [_], leavesAll, leaves]

theorem idsAll_forest_open (s : Session) (id : Nat) (kind : NodeKind) :
    idsAll ({ s with frames := ⟨id, kind, []⟩ :: s.frames } : Session).forest =
      idsAll s.forest ++ [id] := by
  simp [idsAll_forest, nest, idsAll_nest s.frames [_], idsAll, ids]

namespace Gains

theorem refl (H : s.Rooted) : s.Gains [] s :=
  ⟨rfl, rfl, rfl, H, .of_eq (List.append_nil _).symm, .of_eq (List.append_nil _).symm⟩

theorem trans (H : s.Gains es t) (H' : t.Gains fs u) : s.Gains (es ++ fs) u where
  limits := H'.limits.trans H.limits
  depth := H'.depth.trans H.depth
  state := H'.state.trans H.state
  rooted := H'.rooted
  leaves := by
    rw [leavesAll_append, ← List.append_assoc]
    exact H'.leaves.trans (H.leaves.append_right _)
  ids := by
    rw [idsAll_append, ← List.append_assoc]
    exact H'.ids.trans (H.ids.append_right _)

end Gains

/-- Where there is a node, an element can be attached. -/
theorem exists_attach (H : s.Rooted) (e : Element) :
    ∃ t, s.attach e = some t ∧ s.Gains [e] t ∧ t.frames.length = s.frames.length := by
  obtain ⟨limits, depth, frames, root, alone, state⟩ := s
  cases frames with
  | cons f fs =>
    refine ⟨_, rfl, ⟨rfl, rfl, rfl, .of_open rfl H.alone, .of_eq ?_, .of_eq ?_⟩, rfl⟩
    · simp [leavesAll_forest, nest, leavesAll_nest fs [_], leavesAll, leaves]
    · simp [idsAll_forest, nest, idsAll_nest fs [_], idsAll, ids]
  | nil =>
    obtain ⟨r, rfl⟩ := Option.isSome_iff_exists.1 (H.root rfl)
    cases e with
    | token t =>
      refine ⟨_, rfl, ⟨rfl, rfl, rfl, ⟨fun _ => rfl, H.alone⟩, ?_, .of_eq ?_⟩, rfl⟩
      · -- The token goes to the first node, which comes before the nodes that stand alone.
        simp only [leavesAll_forest, Option.toList_some, List.map_cons, List.map_nil, leavesAll,
          Node.toElement, leaves, leavesAll_append, List.append_nil, nest, List.append_assoc]
        exact .append_left _ List.perm_append_comm
      · simp [idsAll_forest, Node.toElement, nest, idsAll, ids]
    | node i k sp cs =>
      refine ⟨_, rfl, ⟨rfl, rfl, rfl, ⟨fun _ => rfl, ?_⟩, .of_eq ?_, .of_eq ?_⟩, rfl⟩
      · have halone : alone.filterMap asToken? = [] := H.alone
        rw [List.filterMap_append, halone]
        rfl
      · simp [leavesAll_forest, nest, leavesAll, leaves]
      · simp [idsAll_forest, nest, idsAll, ids]

theorem exists_attachAll (H : s.Rooted) (es : List Element) :
    ∃ t, s.attachAll es = some t ∧ s.Gains es t ∧ t.frames.length = s.frames.length := by
  induction es generalizing s with
  | nil => exact ⟨s, rfl, .refl H, rfl⟩
  | cons e es ih =>
    obtain ⟨t, ht, hgains, hlength⟩ := exists_attach H e
    obtain ⟨u, hu, hgains', hlength'⟩ := ih hgains.rooted
    refine ⟨u, ?_, hgains.trans hgains', hlength'.trans hlength⟩
    rw [attachAll, ht]
    exact hu

/-- Closing a node leaves the tokens and the nodes as they are. -/
theorem exists_finish (H : s.Rooted) :
    ∃ t, s.finish = some t ∧ s.Gains [] t ∧ t.frames.length = s.frames.length - 1 := by
  obtain ⟨limits, depth, frames, root, alone, state⟩ := s
  rcases frames with _ | ⟨f, _ | ⟨g, gs⟩⟩
  · exact ⟨_, rfl, .refl H, rfl⟩
  · cases root with
    | none =>
      refine ⟨_, rfl, ⟨rfl, rfl, rfl, ⟨fun _ => rfl, H.alone⟩, ?_, ?_⟩, rfl⟩
      · simp only [leavesAll_forest, Option.toList_some, Option.toList_none, List.map_cons,
          List.map_nil, leavesAll, Node.toElement, leaves, List.append_nil, List.nil_append, nest]
        exact List.perm_append_comm
      · simp only [idsAll_forest, Option.toList_some, Option.toList_none, List.map_cons,
          List.map_nil, idsAll, Node.toElement, ids, List.append_nil, List.nil_append, nest]
        exact List.perm_append_comm
    | some r =>
      refine ⟨_, rfl, ⟨rfl, rfl, rfl, ⟨fun _ => rfl, ?_⟩, .of_eq ?_, .of_eq ?_⟩, rfl⟩
      · have halone : alone.filterMap asToken? = [] := H.alone
        rw [List.filterMap_append, halone]
        rfl
      · simp [leavesAll_forest, nest, leavesAll, leaves]
      · simp [idsAll_forest, nest, idsAll, ids]
  · refine ⟨_, rfl, ⟨rfl, rfl, rfl, .of_open rfl H.alone, .of_eq ?_, .of_eq ?_⟩, rfl⟩
    · simp [leavesAll_forest, nest, leavesAll_nest gs [_], leavesAll, leaves]
    · simp [idsAll_forest, nest, idsAll_nest gs [_], idsAll, ids]

theorem exists_closeAll (H : s.Rooted) {fs : List Frame} (hfs : fs.length = s.frames.length) :
    ∃ t, s.closeAll fs = some t ∧ s.Gains [] t ∧ t.frames = [] := by
  induction fs generalizing s with
  | nil => exact ⟨s, rfl, .refl H, List.eq_nil_of_length_eq_zero hfs.symm⟩
  | cons f fs ih =>
    obtain ⟨t, ht, hgains, hlength⟩ := exists_finish H
    rw [← hfs, List.length_cons, Nat.add_sub_cancel] at hlength
    obtain ⟨u, hu, hgains', hframes⟩ := ih hgains.rooted hlength.symm
    refine ⟨u, ?_, hgains.trans hgains', hframes⟩
    rw [closeAll, ht]
    exact hu

end

end Session

end Blueprint
