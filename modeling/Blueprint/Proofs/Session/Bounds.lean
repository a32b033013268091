import Blueprint.Proofs.Session.Coherent
import Blueprint.Proofs.Session.Records

/-!
# Sessions in an arena

`Kept s a`: the arena has the records of the nodes of the session, each at the place of its number.
Attaching elements (`Kept.attachAll`) and closing nodes (`Kept.finish`) then is an access to what is
there. A session and its arena go side by side (`Mirrors`), and every operation leads from such a
pair to one (`Mirrors.perform`). Only the first node can fail to start: in a text that starts with
trivia there is no node yet that the trivia could go to (`Session.built_bounds`).
-/

namespace Blueprint

open Element

namespace Element

variable {es : List Element}

/-- Tokens have no numbers. -/
theorem idsAll_filter : idsAll (es.filter fun e => e.asToken?.isNone) = idsAll es := by
  induction es with
  | nil => rfl
  | cons e es ih =>
    cases e with
    | token t => exact ih
    | node i k s cs => exact congrArg (ids (.node i k s cs) ++ ·) ih

/-- Tokens have no records. -/
theorem recordsAll_filter {parent : Option Nat} :
    recordsAll parent (es.filter fun e => e.asToken?.isNone) = recordsAll parent es := by
  induction es with
  | nil => rfl
  | cons e es ih =>
    cases e with
    | token t => exact ih
    | node i k s cs => exact congrArg (records parent (.node i k s cs) ++ ·) ih

end Element

namespace Session

/-- The nodes outside those that are open. -/
def outer (s : Session) : List Element := s.root.toList.map Node.toElement ++ s.alone

/-- The records of open nodes, the innermost first, and of what comes before the children that the
innermost gets next, `children`. -/
def around : List Frame → (children : List ChildId) → List Record
  | [], _ => []
  | f :: fs, children => around fs [.node f.id] ++
      ⟨f.kind, (fs.map Frame.id).head?, f.children.map child ++ children, ⟨0, 0, 0, 0⟩⟩ ::
        recordsAll (some f.id) f.children

theorem recordsAll_nest (fs : List Frame) (inner : List Element) :
    recordsAll none (nest fs inner) =
      around fs (inner.map child) ++ recordsAll (fs.map Frame.id).head? inner := by
  induction fs generalizing inner with
  | nil => rfl
  | cons f fs ih =>
    rw [nest, ih, around, recordsAll, recordsAll, records, recordsAll_append, List.map_append]
    simp only [List.map_cons, List.map_nil, child, List.head?_cons, List.append_nil,
      List.append_assoc, List.cons_append]

theorem length_around (fs : List Frame) (children : List ChildId) :
    (around fs children).length = (idsAll (nest fs [])).length := by
  induction fs generalizing children with
  | nil => rfl
  | cons f fs ih =>
    rw [around, nest, idsAll_nest fs [_]]
    simp only [List.length_append, List.length_cons, ih, length_recordsAll, idsAll, ids,
      List.append_nil]

variable {source : String} {limits : Limits} {s t : Session} {a b : Arena} {n m : Nat}
  {ts us : List Token} {es : List Element} {f : Frame} {fs : List Frame} {r : Node}

/-- What is attached inside an open node comes behind its children. -/
theorem attachAll_of_open (hframes : s.frames = f :: fs) :
    s.attachAll es = some { s with frames := { f with children := f.children ++ es } :: fs } := by
  induction es generalizing s f with
  | nil => rw [attachAll, List.append_nil, ← hframes]
  | cons e es ih =>
    have hattach : s.attach e =
        some { s with frames := { f with children := f.children ++ [e] } :: fs } := by
      simp only [attach, hframes]
    rw [attachAll, hattach, Option.bind_eq_bind, Option.bind_some, ih rfl]
    simp

/-- Outside of open nodes the first node gets the tokens, and the nodes stand alone. -/
theorem attachAll_of_root (hframes : s.frames = []) (hroot : s.root = some r) :
    s.attachAll es = some { s with
      root := some { r with children := r.children ++ (es.filterMap asToken?).map .token }
      alone := s.alone ++ es.filter fun e => e.asToken?.isNone } := by
  induction es generalizing s r with
  | nil =>
    simp only [attachAll, List.filterMap_nil, List.map_nil, List.filter_nil, List.append_nil,
      ← hroot]
  | cons e es ih =>
    cases e with
    | token t =>
      have hattach : s.attach (.token t) =
          some { s with root := some { r with children := r.children ++ [.token t] } } := by
        simp only [attach, hframes, hroot]
      have ih := @ih { s with root := some { r with children := r.children ++ [.token t] } } _
        hframes rfl
      rw [attachAll, hattach, Option.bind_eq_bind, Option.bind_some, ih]
      simp [asToken?]
    | node i k sp cs =>
      have hattach : s.attach (.node i k sp cs) =
          some { s with alone := s.alone ++ [.node i k sp cs] } := by
        simp only [attach, hframes, hroot]
      have ih := @ih { s with alone := s.alone ++ [.node i k sp cs] } _ hframes hroot
      rw [attachAll, hattach, Option.bind_eq_bind, Option.bind_some, ih,
        List.filterMap_cons_none rfl]
      simp [asToken?]

/-- A node that is just started is where an empty one would be attached. -/
theorem forest_open (H : s.Rooted) {kind : NodeKind}
    (ht : s.attachAll [.node n kind ⟨0, 0, 0, 0⟩ []] = some t) :
    ({ s with frames := ⟨n, kind, []⟩ :: s.frames } : Session).forest = t.forest := by
  cases hframes : s.frames with
  | nil =>
    obtain ⟨r, hroot⟩ := Option.isSome_iff_exists.1 (H.root hframes)
    rw [attachAll_of_root hframes hroot] at ht
    cases ht
    have hadopted : [Element.node n kind ⟨0, 0, 0, 0⟩ []].filterMap asToken? = [] := rfl
    simp [forest, nest, hframes, hroot, hadopted, asToken?]
  | cons f fs =>
    rw [attachAll_of_open hframes] at ht
    cases ht
    simp [forest, nest]

/-- The innermost open node stays where it was started, and gets its range. -/
theorem forest_of_finish (hframes : s.frames = f :: fs) (halone : s.root = none → s.alone = [])
    (h : s.finish = some t) :
    t.forest = s.outer ++ nest fs [.node f.id f.kind (s.state.nodeSpan f.children) f.children] ∧
      t.frames.map Frame.id = fs.map Frame.id ∧ (t.root = none → t.alone = []) := by
  obtain ⟨limits, depth, frames, root, alone, state⟩ := s
  subst hframes
  rcases fs with _ | ⟨g, gs⟩
  · cases root with
    | none =>
      cases h
      obtain rfl : alone = [] := halone rfl
      exact ⟨rfl, rfl, nofun⟩
    | some r =>
      cases h
      exact ⟨List.append_nil _, rfl, nofun⟩
  · cases h
    exact ⟨by simp [forest, outer, nest], rfl, halone⟩

/-- The arena has the records of the session's nodes, and the tokens `ts` are those that were not
attached. -/
structure Kept (s : Session) (a : Arena) (n : Nat) (ts : List Token) : Prop where
  rooted : s.Rooted
  alone : s.root = none → s.alone = []
  faces : a.Faces n ts
  ids : idsAll s.forest = List.range n
  leaves : ∀ t ∈ leavesAll s.forest, t ∈ a.tokens
  nodes : a.nodes = recordsAll none s.forest
  opened : a.opened = s.frames.map Frame.id

namespace Kept

theorem withState (H : s.Kept a n ts) (u : State) : ({ s with state := u } : Session).Kept a n ts :=
  ⟨H.rooted.withState u, H.alone, H.faces, H.ids, H.leaves, H.nodes, H.opened⟩

/-- The numbers while a node is open. -/
theorem ids_eq (H : s.Kept a n ts) (hframes : s.frames = f :: fs) :
    (idsAll s.outer ++ idsAll (nest fs [])) ++ f.id :: idsAll f.children = List.range n := by
  rw [← H.ids, forest, hframes, nest, idsAll_append, idsAll_nest fs [_], idsAll, Element.ids, idsAll,
    List.append_nil, List.append_nil, List.append_assoc]
  rfl

/-- An open node has its record at the place of its number, behind those of the nodes around it. -/
theorem id_eq_length (H : s.Kept a n ts) (hframes : s.frames = f :: fs) :
    f.id = (recordsAll none s.outer ++ around fs [.node f.id]).length := by
  rw [eq_length_of_append_eq_range (H.ids_eq hframes), List.length_append, List.length_append,
    length_recordsAll, length_around]

/-- The records while a node is open. -/
theorem nodes_eq (H : s.Kept a n ts) (hframes : s.frames = f :: fs) :
    a.nodes = (recordsAll none s.outer ++ around fs [.node f.id]) ++
      ⟨f.kind, (fs.map Frame.id).head?, f.children.map child, ⟨0, 0, 0, 0⟩⟩ ::
        recordsAll (some f.id) f.children := by
  rw [H.nodes, forest, hframes, recordsAll_append, recordsAll_nest, around, recordsAll]
  simp only [outer, List.map_nil, List.append_nil, List.append_assoc]

/-- Elements that were built are those that the nodes of the session get. -/
theorem forest_attachAll (H : s.Kept a n ts) (ht : s.attachAll es = some t) :
    idsAll t.forest = List.range n ++ idsAll es ∧ recordsAll none t.forest = grow a.opened a.nodes es ∧
      t.frames.map Frame.id = s.frames.map Frame.id ∧ (t.root = none → t.alone = []) := by
  rw [← H.ids, grow, H.opened]
  cases hframes : s.frames with
  | nil =>
    obtain ⟨r, hroot⟩ := Option.isSome_iff_exists.1 (H.rooted.root hframes)
    rw [attachAll_of_root hframes hroot] at ht
    cases ht
    rw [H.nodes]
    refine ⟨?_, ?_, by rw [hframes], fun h => absurd h (Option.some_ne_none _)⟩
    · simp [forest, hframes, hroot, nest, Node.toElement, idsAll, Element.ids, idsAll_filter]
    · have hadopted : adopted [] es = (es.filterMap asToken?).map (child ∘ .token) := rfl
      simp [forest, hframes, hroot, nest, Node.toElement, recordsAll, records, recordsAll_filter,
        Record.adopt, hadopted]
  | cons f fs =>
    rw [attachAll_of_open hframes] at ht
    cases ht
    have hforest : Session.forest { s with
        frames := { f with children := f.children ++ es } :: fs } = s.outer ++ nest (f :: fs) es := by
      simp [forest, outer, nest]
    refine ⟨?_, ?_, rfl, H.alone⟩
    · rw [hforest, idsAll_append, idsAll_nest, ← List.append_assoc, forest, hframes, idsAll_append]
      rfl
    · have hlen := H.id_eq_length hframes
      rw [hforest, recordsAll_append, recordsAll_nest, around, H.nodes_eq hframes, List.map_cons,
        List.headD_cons, List.head?_cons]
      simp only [← List.append_assoc]
      generalize recordsAll none s.outer ++ around fs [.node f.id] = front at hlen ⊢
      have hmodify (r : Record) (rs : List Record) (g : Record → Record) :
          (front ++ r :: rs).modify f.id g = front ++ g r :: rs := hlen ▸ modify_length_append
      simp [hmodify, Record.adopt, adopted]

/-- Elements that were built in the arena are attached in the session. -/
theorem attachAll (H : s.Kept a n ts) (ht : s.attachAll es = some t)
    (hids : List.range n ++ idsAll es = List.range m)
    (hleaves : ∀ u ∈ leavesAll es, u ∈ a.tokens) (hb : a.Gets es b) (Hb : b.Faces m us) :
    t.Kept b m us := by
  obtain ⟨hforest, hrecords, hframes, halone⟩ := H.forest_attachAll ht
  obtain ⟨t', ht', hgains, -⟩ := exists_attachAll H.rooted es
  rw [ht] at ht'
  cases ht'
  refine ⟨hgains.rooted, halone, Hb, hforest.trans hids, fun u hu => ?_,
    hb.nodes.trans hrecords.symm, hb.opened.trans (H.opened.trans hframes.symm)⟩
  rw [hb.tokens]
  exact (List.mem_append.1 (hgains.leaves.mem_iff.1 hu)).elim (H.leaves u) (hleaves u)

/-- A node is started in the arena as in the session. -/
theorem start (H : s.Kept a n ts) (kind : NodeKind) :
    ∃ b, a.start kind = some b ∧ b.tokens = a.tokens ∧
      ({ s with frames := ⟨n, kind, []⟩ :: s.frames } : Session).Kept b (n + 1) ts := by
  let e : Element := .node n kind ⟨0, 0, 0, 0⟩ []
  obtain ⟨t, ht, -⟩ := exists_attachAll H.rooted [e]
  obtain ⟨b, hb, Hb, htokens, hopened, hnodes⟩ := H.faces.start kind ⟨0, 0, 0, 0⟩ []
  refine ⟨b, hb, htokens, .of_open rfl H.rooted.alone, H.alone, Hb, ?_, ?_, ?_, ?_⟩
  · rw [idsAll_forest_open, H.ids, List.range_succ]
  · rw [leavesAll_forest_open, htokens]
    exact H.leaves
  · rw [forest_open H.rooted ht, (H.forest_attachAll ht).2.1]
    exact hnodes
  · rw [hopened, H.opened]
    rfl

/-- The innermost open node is closed in the arena as in the session. -/
theorem finish (H : s.Kept a n ts) (ht : s.finish = some t)
    (hnext : ∀ es, s.state.nodeSpan es = (Element.spanOver es).getD (Span.startOf a.nextSpan)) :
    ∃ b, a.finish = some b ∧ t.Kept b n ts ∧ b.tokens = a.tokens ∧ b.attached = a.attached := by
  cases hframes : s.frames with
  | nil =>
    rw [Session.finish, hframes] at ht
    cases ht
    have hopened : a.opened = [] := by rw [H.opened, hframes]; rfl
    exact ⟨a, by rw [Arena.finish, hopened], H, rfl, rfl⟩
  | cons f fs =>
    obtain ⟨hforest, hframes', halone⟩ := forest_of_finish hframes H.alone ht
    obtain ⟨t', ht', hgains, -⟩ := exists_finish H.rooted
    rw [ht] at ht'
    cases ht'
    have hids := H.ids_eq hframes
    have hlen := H.id_eq_length hframes
    have hnodes := H.nodes_eq hframes
    generalize hfront : recordsAll none s.outer ++ around fs [.node f.id] = front at hlen hnodes
    have hopened : a.opened = front.length :: fs.map Frame.id := by
      rw [H.opened, hframes, List.map_cons, hlen]
    have hspan : a.spanOver (f.children.map child) = some (s.state.nodeSpan f.children) := by
      have hbefore : a.nodes = (front ++ [⟨f.kind, (fs.map Frame.id).head?, f.children.map child,
          ⟨0, 0, 0, 0⟩⟩]) ++ recordsAll (some f.id) f.children := by
        rw [hnodes, List.append_assoc]
        rfl
      rw [hnext]
      refine H.faces.spanOver_child hbefore ?_ fun u hu => H.leaves u ?_
      · rw [List.length_append, List.length_singleton, ← hlen]
        exact range_append_of_append_eq_range hids
      · rw [leavesAll_forest, hframes, nest, leavesAll_nest fs [_]]
        simp [leavesAll, Element.leaves, hu]
    refine ⟨_, Arena.finish_eq hopened hnodes hspan, ⟨hgains.rooted, halone, ?_, ?_, ?_, ?_, ?_⟩,
      rfl, rfl⟩
    · refine ⟨H.faces.tokens, H.faces.index, H.faces.owners, ?_, fun id hid => ?_, H.faces.pos⟩
      · rw [← H.faces.nodes, hnodes]
        simp only [List.length_append, List.length_cons]
      · exact H.faces.opened id (hopened ▸ .tail _ hid)
    · rw [hforest, idsAll_append, idsAll_nest, idsAll, Element.ids, idsAll, List.append_nil,
        ← List.append_assoc]
      exact hids
    · intro u hu
      exact H.leaves u (by simpa [leavesAll] using hgains.leaves.mem_iff.1 hu)
    · rw [hforest, recordsAll_append, recordsAll_nest, recordsAll, recordsAll, List.append_nil,
        ← List.append_assoc]
      exact congrArg (· ++ _) hfront.symm
    · exact hframes'.symm

/-- All open nodes are closed in the arena as in the session. -/
theorem closeAll (H : s.Kept a n ts) (ht : s.closeAll fs = some t)
    (hnext : ∀ es, s.state.nodeSpan es = (Element.spanOver es).getD (Span.startOf a.nextSpan))
    (ids : List Nat) (hlen : ids.length = fs.length) :
    ∃ b, a.finishAll ids = some b ∧ t.Kept b n ts := by
  induction fs generalizing s a ids with
  | nil =>
    cases ht
    obtain rfl := List.eq_nil_of_length_eq_zero hlen
    exact ⟨a, rfl, H⟩
  | cons f fs ih =>
    obtain ⟨id, ids, rfl⟩ := List.exists_cons_of_length_eq_add_one hlen
    obtain ⟨u, hu, hgains, -⟩ := exists_finish H.rooted
    obtain ⟨b, hb, Hb, htokens, hattached⟩ := H.finish hu hnext
    rw [Session.closeAll, hu] at ht
    have hnext' : b.nextSpan = a.nextSpan := by rw [Arena.nextSpan, htokens, hattached]; rfl
    obtain ⟨c, hc, Hc⟩ := ih Hb ht (by rwa [hgains.state, hnext']) ids (Nat.succ.inj hlen)
    exact ⟨c, by rw [Arena.finishAll, hb]; exact hc, Hc⟩

end Kept

/-- A session and an arena of the same text, after the same operations. -/
structure Mirrors (source : String) (s : Session) (a : Arena) : Prop where
  held : s.Held source
  kept : s.Kept a s.state.nodes s.state.unattached
  tokens : a.tokens = tokenize source

namespace Mirrors

theorem current_eq (H : s.Mirrors source a) : a.current = some s.state.token := by
  obtain ⟨us, hus⟩ := s.state.exists_token_cons
  have hfaces := H.kept.faces
  rw [State.unattached, List.append_assoc, hus] at hfaces
  exact hfaces.current_eq H.held.wf.isTrivia_pending H.held.wf.isTrivia_token

/-- What a rule emits is built in the arena and attached in the session. -/
theorem run {α : Type} {r : Rule α} (H : s.Mirrors source a) (hr : r.Runs) :
    ∃ t b, s.run r = some ((r s.state).value, t) ∧ a.buildAll (r s.state).emitted = some b ∧
      t.Mirrors source b := by
  have hrun := hr s.state
  obtain ⟨b, hb, Hb⟩ := hrun.built H.kept.faces
  obtain ⟨t, ht, hgains, -⟩ := exists_attachAll (H.held.rooted.withState (r s.state).state)
    (r s.state).emitted
  have hleaves := hrun.leavesAll_append_unattached
  have hids := hrun.range_nodes_append_idsAll
  refine ⟨t, b, by rw [Session.run, ht]; rfl, hb.built, H.held.gains (hrun.wf H.held.wf) hleaves hids
    hgains, ?_, hb.tokens.trans H.tokens⟩
  rw [hgains.state]
  refine (H.kept.withState _).attachAll ht hids (fun u hu => ?_) hb Hb
  obtain ⟨front, hfront, -⟩ := H.kept.faces.tokens
  rw [hfront, ← hleaves]
  exact List.mem_append_right _ (List.mem_append_left _ hu)

/-- The same with a look at the current token before, and an answer. -/
theorem run_answer {α : Type} {r : Rule α} (H : s.Mirrors source a) (hr : r.Runs) (g : α → Answer) :
    ∃ answer t b, (do
      let (v, t) ← s.run r
      return (g v, t)) = some (answer, t) ∧ (do
      let _ ← a.current
      a.buildAll (r s.state).emitted) = some b ∧ t.Mirrors source b := by
  obtain ⟨t, b, ht, hb, Hb⟩ := H.run hr
  exact ⟨_, t, b, by rw [ht]; rfl, by rw [H.current_eq]; exact hb, Hb⟩

theorem finish (H : s.Mirrors source a) :
    ∃ t b, s.finish = some t ∧ a.finish = some b ∧ t.Mirrors source b := by
  obtain ⟨t, ht, hgains, -⟩ := exists_finish H.held.rooted
  obtain ⟨b, hb, Hb, htokens, -⟩ := H.kept.finish ht H.kept.faces.nodeSpan_eq
  refine ⟨t, b, ht, hb, H.held.gains H.held.wf rfl (List.append_nil _) hgains, ?_,
    htokens.trans H.tokens⟩
  rwa [hgains.state]

/-- A node is started behind the trivia that waits. -/
theorem start (H : s.Mirrors source a) (kind : NodeKind) :
    ∃ id t b, s.start kind = some (id, t) ∧ s.performIn a (.start kind) = some b ∧
      t.Mirrors source b := by
  obtain ⟨id, t, ht, hadvances⟩ := H.held.start kind
  have hfaces := H.kept.faces
  rw [State.unattached, List.append_assoc] at hfaces
  obtain ⟨b, hb, Hb⟩ := hfaces.tokens_gets
  obtain ⟨u, hu, hgains, -⟩ := exists_attachAll (H.held.rooted.withState s.state.opened)
    (s.state.pending.map .token)
  have hkept : u.Kept b s.state.nodes s.state.opened.unattached := by
    refine (H.kept.withState _).attachAll hu ?_ (fun v hv => ?_) hb Hb
    · rw [idsAll_map_token, List.append_nil]
    · rw [leavesAll_map_token] at hv
      obtain ⟨front, hfront, -⟩ := hfaces.tokens
      rw [hfront]
      exact List.mem_append_right _ (List.mem_append_left _ hv)
  obtain ⟨c, hc, htokens, Hc⟩ := hkept.start kind
  rw [start_eq, hu] at ht
  cases ht
  refine ⟨_, _, c, by rw [start_eq, hu]; rfl, ?_, hadvances.held, ?_,
    htokens.trans (hb.tokens.trans H.tokens)⟩
  · have hemitted : s.emitted (.start kind) = s.state.pending.map .token := rfl
    rw [performIn, hemitted, hb.built]
    exact hc
  · change Session.Kept _ c u.state.nodes u.state.unattached
    have hnodes : u.state.nodes = s.state.nodes + 1 := congrArg State.nodes hgains.state
    have hunattached := congrArg State.unattached hgains.state
    rw [hnodes, hunattached]
    exact Hc

theorem withDepth (H : s.Mirrors source a) (depth : Nat) :
    ({ s with depth } : Session).Mirrors source a where
  held := ⟨H.held.wf, ⟨H.held.rooted.root, H.held.rooted.alone⟩, H.held.leaves, H.held.ids⟩
  kept := ⟨⟨H.kept.rooted.root, H.kept.rooted.alone⟩, H.kept.alone, H.kept.faces, H.kept.ids,
    H.kept.leaves, H.kept.nodes, H.kept.opened⟩
  tokens := H.tokens

theorem enter (H : s.Mirrors source a) : s.enter.Mirrors source a := H.withDepth _

theorem leave (H : s.Mirrors source a) : s.leave.Mirrors source a := H.withDepth _

end Mirrors

mutual

/-- Every operation succeeds in the arena, and does there what it does in the session. -/
theorem Mirrors.perform : ∀ (op : Operation) (s : Session) (a : Arena), s.Mirrors source a →
    ∃ answer t b, s.perform op = some (answer, t) ∧ s.performIn a op = some b ∧ t.Mirrors source b
  | .start kind, s, a, H => by
    obtain ⟨id, t, b, ht, hb, Hb⟩ := H.start kind
    exact ⟨.node id, t, b, by rw [Session.perform, ht]; rfl, hb, Hb⟩
  | .finish, s, a, H => by
    obtain ⟨t, b, ht, hb, Hb⟩ := H.finish
    exact ⟨.none, t, b, by rw [Session.perform, ht]; rfl, hb, Hb⟩
  | .bump, _, _, H => H.run_answer .bump fun _ => .none
  | .eat kind, _, _, H => H.run_answer (Rule.Runs.inherited.eat kind) .flag
  | .expect kind, _, _, H => H.run_answer (Rule.Runs.inherited.expect kind) .flag
  | .raise _, _, _, H => H.run_answer .raise fun _ => .none
  | .raiseExpected expected, _, _, H =>
    H.run_answer (Rule.Runs.inherited.raiseExpected expected) fun _ => .none
  | .raiseMissingValue start, _, _, H =>
    H.run_answer (Rule.Runs.inherited.raiseMissingValue start) fun _ => .none
  | .items, s, _, H =>
    H.run_answer (Rule.Runs.inherited.items s.limits s.room s.limits.maxIterations) fun _ => .none
  | .produce production, s, _, H => H.run_answer (production.runs_rule s.limits s.room) .outcome
  | .skipTo landing, s, _, H => H.run_answer (landing.runs_skip s.limits) .flag
  | .skipGroup, s, _, H => H.run_answer (Rule.Runs.inherited.skipGroup s.limits) .node
  | .skipChain, s, _, H => H.run_answer (Rule.Runs.inherited.skipChain s.limits) .node
  | .deeper operations, s, a, H => by
    obtain ⟨t, b, ht, hb, Hb⟩ := Mirrors.performAll operations s.enter a H.enter
    exact ⟨.none, t.leave, b, by rw [Session.perform, ht]; rfl, hb, Hb.leave⟩

theorem Mirrors.performAll : ∀ (operations : List Operation) (s : Session) (a : Arena),
    s.Mirrors source a → ∃ t b, s.performAll operations = some t ∧
      s.performAllIn a operations = some b ∧ t.Mirrors source b
  | [], s, a, H => ⟨s, a, rfl, rfl, H⟩
  | op :: ops, s, a, H => by
    obtain ⟨answer, t, b, ht, hb, Hb⟩ := Mirrors.perform op s a H
    obtain ⟨u, c, hu, hc, Hc⟩ := Mirrors.performAll ops t b Hb
    refine ⟨u, c, by rw [Session.performAll, ht]; exact hu, ?_, Hc⟩
    rw [Session.performAllIn, hb, ht]
    exact hc

end

/-- Closing the session closes the arena. -/
theorem Mirrors.close (H : s.Mirrors source a) :
    ∃ t b, s.close = some t ∧ s.closeIn a = some b ∧ b.nodes = recordsAll none t.forest := by
  let file : Node := (Rule.file s.limits s.room s.state).value
  obtain ⟨b, n, hb, Hb, hids, hnext⟩ := Rule.file_built s.limits s.room H.held.wf H.kept.faces
  have hrun : s.run (Rule.file s.limits s.room) =
      some (file, { s with state := (Rule.file s.limits s.room s.state).state }) := rfl
  obtain ⟨t, ht, hgains, -⟩ :=
    exists_attach (H.held.rooted.withState (Rule.file s.limits s.room s.state).state) file.toElement
  obtain ⟨u, hu, -⟩ := exists_closeAll hgains.rooted rfl
  have hattach : ({ s with state := (Rule.file s.limits s.room s.state).state } : Session).attachAll
      [file.toElement] = some t := by
    rw [Session.attachAll, ht]
    rfl
  have hkept : t.Kept b n [] := by
    refine (H.kept.withState _).attachAll hattach ?_ (fun v hv => ?_) hb Hb
    · rwa [idsAll, idsAll, List.append_nil]
    · rw [leavesAll, leavesAll, List.append_nil,
        (Rule.file_holds s.limits s.room H.held.wf).1] at hv
      obtain ⟨front, hfront, -⟩ := H.kept.faces.tokens
      exact hfront ▸ List.mem_append_right _ hv
  obtain ⟨c, hc, Hc⟩ := hkept.closeAll hu (by rw [hgains.state]; exact hnext) b.opened
    (by rw [hkept.opened, List.length_map])
  refine ⟨u, c, ?_, ?_, Hc.nodes⟩
  · simp only [Session.close, hrun, Option.bind_eq_bind, Option.bind_some, ht, hu]
  · have hbuild := hb.built
    rw [Arena.buildAll_singleton] at hbuild
    rw [closeIn, hbuild]
    exact hc

/-- The sessions that operations lead to when the first of them starts a node, each with its arena.
What is done inside a scope is done one level deeper. -/
inductive Built (source : String) (limits : Limits) : Session → Arena → Prop
  | start {kind : NodeKind} {answer : Answer} {s : Session} {a : Arena} :
    (begin source limits).perform (.start kind) = some (answer, s) →
    (begin source limits).performIn (.begin source) (.start kind) = some a → Built source limits s a
  | perform {s t : Session} {a b : Arena} {op : Operation} {answer : Answer} :
    Built source limits s a → s.perform op = some (answer, t) → s.performIn a op = some b →
    Built source limits t b
  | enter {s : Session} {a : Arena} : Built source limits s a → Built source limits s.enter a

variable {kind : NodeKind}

/-- Trivia waits in front of the first token exactly when the text starts with it. -/
theorem pending_begin_eq_nil_iff :
    (begin source limits).state.pending = [] ↔
      ∀ t ∈ (tokenize source).head?, t.isTrivia = false := by
  have hwf : (begin source limits).state.WF := State.wf_ofStream source.toList
  have hunattached : (begin source limits).state.unattached = tokenize source :=
    State.unattached_ofStream _
  rw [← hunattached, State.unattached, List.append_assoc]
  obtain ⟨us, hus⟩ := (begin source limits).state.exists_token_cons
  rw [hus]
  cases hpending : (begin source limits).state.pending with
  | nil =>
    refine ⟨fun _ t ht => ?_, fun _ => rfl⟩
    cases ht
    exact hwf.isTrivia_token
  | cons t ts =>
    refine ⟨fun h => absurd h (List.cons_ne_nil t ts), fun hfirst => ?_⟩
    have htrivia := hwf.isTrivia_pending t (hpending ▸ .head _)
    rw [hfirst t rfl] at htrivia
    cases htrivia

/-- The trivia in front of the first node has no node to go to. -/
theorem performIn_start_begin (hpending : (begin source limits).state.pending ≠ []) :
    (begin source limits).performIn (.begin source) (.start kind) = none := by
  obtain ⟨t, ts, hts⟩ := List.exists_cons_of_ne_nil hpending
  have hemitted : (begin source limits).emitted (.start kind) = .token t :: ts.map .token :=
    congrArg (List.map Element.token) hts
  have htoken : (Arena.begin source).token t.index = none := rfl
  rw [performIn, hemitted, Arena.buildAll, Arena.build, htoken]
  cases (Arena.begin source).current <;> rfl

/-- Where no trivia waits the first node is started. -/
theorem mirrors_begin (hfirst : ∀ t ∈ (tokenize source).head?, t.isTrivia = false) :
    ∃ s a, (begin source limits).start kind = some (0, s) ∧
      (begin source limits).performIn (.begin source) (.start kind) = some a ∧
      s.Mirrors source a := by
  have hpending := (@pending_begin_eq_nil_iff source limits).2 hfirst
  have hunattached : (begin source limits).state.opened.unattached = tokenize source := by
    have hall : (begin source limits).state.unattached = tokenize source :=
      State.unattached_ofStream _
    rwa [State.unattached, hpending] at hall
  obtain ⟨s, hs, H⟩ := exists_begin hfirst limits kind
  have hstart := hs
  rw [start_eq, hpending] at hstart
  cases hstart
  refine ⟨_, { Arena.begin source with
    nodes := [⟨kind, none, [], ⟨0, 0, 0, 0⟩⟩]
    opened := [0] }, hs, ?_, H, ?_, rfl⟩
  · have hemitted : (begin source limits).emitted (.start kind) = [] :=
      congrArg (List.map Element.token) hpending
    rw [performIn, hemitted]
    rfl
  · refine ⟨H.rooted, fun _ => rfl, ⟨⟨[], hunattached.symm, rfl⟩, map_index_tokenize source,
      List.length_map _, rfl, fun id hid => ?_, Nat.one_pos⟩, rfl,
      fun t ht => absurd ht List.not_mem_nil, rfl, rfl⟩
    rw [List.mem_singleton.1 hid]
    exact Nat.one_pos

theorem Built.mirrors (h : Built source limits s a) : s.Mirrors source a := by
  induction h with
  | @start kind answer s a hs ha =>
    by_cases hpending : (begin source limits).state.pending = []
    · obtain ⟨t, b, ht, hb, H⟩ := mirrors_begin (pending_begin_eq_nil_iff.1 hpending)
      rw [Session.perform, ht] at hs
      rw [hb] at ha
      cases hs
      cases ha
      exact H
    · rw [performIn_start_begin hpending] at ha
      cases ha
  | @perform s t a b op answer _ ht hb ih =>
    obtain ⟨_, u, c, hu, hc, H⟩ := Mirrors.perform op s a ih
    rw [ht] at hu
    rw [hb] at hc
    cases hu
    cases hc
    exact H
  | enter _ ih => exact ih.enter

/-- The first node can be started in the arena of a text exactly when the text does not start with
trivia. Whatever operations follow, each of them succeeds in the arena, and so does closing it: every
node and every token that is looked at is there. At the cursor is the current token, and the nodes
are those of the session. -/
theorem built_bounds (source : String) (limits : Limits) :
    (∀ kind, ((begin source limits).performIn (.begin source) (.start kind)).isSome = true ↔
      ∀ t ∈ (tokenize source).head?, t.isTrivia = false) ∧
      ∀ s a, Built source limits s a →
        a.current = some s.state.token ∧ a.nodes = recordsAll none s.forest ∧
        (∀ op, ∃ answer t b, s.perform op = some (answer, t) ∧ s.performIn a op = some b) ∧
        ∃ t b, s.close = some t ∧ s.closeIn a = some b ∧ b.nodes = recordsAll none t.forest := by
  refine ⟨fun kind => ⟨fun h => ?_, fun hfirst => ?_⟩, fun s a h => ?_⟩
  · by_contra hfirst
    rw [← @pending_begin_eq_nil_iff source limits] at hfirst
    rw [performIn_start_begin hfirst] at h
    cases h
  · obtain ⟨s, a, -, ha, -⟩ := @mirrors_begin source limits kind hfirst
    rw [ha]
    rfl
  · have H := h.mirrors
    refine ⟨H.current_eq, H.kept.nodes, fun op => ?_, H.close⟩
    obtain ⟨answer, t, b, ht, hb, -⟩ := Mirrors.perform op s a H
    exact ⟨answer, t, b, ht, hb⟩

/-- A node that is closed twice, and a token that then goes to the first node. -/
theorem built_bounds_finished :
    ∃ s a b, Built "x = 1" .standard s a ∧ s.frames = [] ∧ a.nodes.length = 1 ∧
      s.performIn a .bump = some b ∧ (s.closeIn a).isSome = true := by
  have hfirst : ∀ t ∈ (tokenize "x = 1").head?, t.isTrivia = false := by decide +kernel
  obtain ⟨hstart, hbuilt⟩ := built_bounds "x = 1" .standard
  obtain ⟨s₁, hs₁, -⟩ := exists_begin hfirst .standard .file
  obtain ⟨a₁, ha₁⟩ := Option.isSome_iff_exists.1 ((hstart .file).2 hfirst)
  have hfirst₁ : (begin "x = 1" .standard).perform (.start .file) = some (.node 0, s₁) := by
    rw [perform, hs₁]
    rfl
  have r₁ := Built.start hfirst₁ ha₁
  obtain ⟨_, s₂, a₂, hs₂, ha₂⟩ := (hbuilt s₁ a₁ r₁).2.2.1 .finish
  have r₂ := r₁.perform hs₂ ha₂
  obtain ⟨_, s₃, a₃, hs₃, ha₃⟩ := (hbuilt s₂ a₂ r₂).2.2.1 .finish
  have r₃ := r₂.perform hs₃ ha₃
  obtain ⟨_, hnodes, hperform, t, c, -, hclose, -⟩ := hbuilt s₃ a₃ r₃
  obtain ⟨_, s₄, a₄, -, ha₄⟩ := hperform .bump
  have hopen : ((do
      let r₁ ← (begin "x = 1" .standard).start .file
      let r₂ ← r₁.2.perform .finish
      let r₃ ← r₂.2.perform .finish
      return (r₃.2.frames, (recordsAll none r₃.2.forest).length) : Option (List Frame × Nat))) =
        some ([], 1) := by decide +kernel
  rw [hs₁] at hopen
  simp only [Option.bind_eq_bind, Option.bind_some, hs₂, hs₃, Option.pure_def, Option.some.injEq,
    Prod.mk.injEq] at hopen
  exact ⟨s₃, a₃, a₄, r₃, hopen.1, hnodes ▸ hopen.2, ha₄, by rw [hclose]; rfl⟩

/-- A text that starts with a space. -/
theorem performIn_start_space :
    (begin " x = 1" .standard).performIn (.begin " x = 1") (.start .file) = none := by
  decide +kernel

end Session

end Blueprint
