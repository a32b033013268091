import Blueprint.Proofs.Session.Steps
import Blueprint.Proofs.Tree.Lossless

/-!
# Sessions stay coherent

Whatever is done in a session, and in whatever order, its nodes hold the tokens in front of a place
in the text, each once, and no others. Nothing goes back, and closing the session gives every token
its owner (`Session.reached_coherent`).
-/

namespace Blueprint

open Element

namespace Session

/-- One node has the token as a child, once, and it is the one that the session names as the owner.
No other node has it. -/
def Owns (s : Session) (t : Token) : Prop :=
  ∃ c ∈ s.nodes, s.ownerOf? t.index = some c.id ∧
    ∀ d ∈ s.nodes, d.childTokens.count t = if d = c then 1 else 0

/-- The session stands at a place in its text. From the first token that no node holds to the
current one there is trivia, and the current one is none. All tokens before have an owner, and no
node holds another. -/
structure Coherent (source : String) (s : Session) : Prop where
  pos_le : s.pos ≤ s.state.position
  position_lt : s.state.position < (tokenize source).length
  pending : ∀ t ∈ tokenize source, s.pos ≤ t.index → t.index < s.state.position →
    t.isTrivia = true
  current : ∀ t ∈ tokenize source, t.index = s.state.position → t.isTrivia = false
  owns : ∀ t ∈ tokenize source, t.index < s.pos → s.Owns t
  held : ∀ c ∈ s.nodes, ∀ t ∈ c.childTokens, t ∈ tokenize source ∧ t.index < s.pos
  ids : (s.nodes.map Cursor.id).Perm (List.range s.state.nodes)

/-- The sessions that operations lead to when the first of them starts a node. What is done inside a
scope is done one level deeper. -/
inductive Reached (source : String) (limits : Limits) : Session → Prop
  | start {kind : NodeKind} {answer : Answer} {s : Session} :
    (begin source limits).perform (.start kind) = some (answer, s) → Reached source limits s
  | perform {s t : Session} {op : Operation} {answer : Answer} : Reached source limits s →
    s.perform op = some (answer, t) → Reached source limits t
  | enter {s : Session} : Reached source limits s → Reached source limits s.enter

variable {source : String} {s t u : Session}

theorem filterMap_forest (H : s.Rooted) : s.forest.filterMap asToken? = [] := by
  have hnest (fs : List Frame) (inner : List Element) (h : inner.filterMap asToken? = []) :
      (nest fs inner).filterMap asToken? = [] := by
    induction fs generalizing inner with
    | nil => exact h
    | cons f fs ih => exact ih _ rfl
  rw [forest, List.filterMap_append, List.filterMap_append, H.alone, hnest _ _ rfl]
  cases s.root <;> rfl

/-- When the nodes hold the tokens of a list, each of them has an owner. -/
theorem owns_of_perm (H : s.Rooted) {n : Nat} (hids : (idsAll s.forest).Perm (List.range n))
    {ts : List Token} (hleaves : (leavesAll s.forest).Perm ts) (hindex : (ts.map Token.index).Nodup)
    {t : Token} (ht : t ∈ ts) : s.Owns t :=
  exists_owner (filterMap_forest H) (hids.nodup_iff.2 List.nodup_range)
    ((hleaves.map _).nodup_iff.2 hindex) (hleaves.mem_iff.2 ht)

theorem Held.coherent (H : s.Held source) : s.Coherent source := by
  obtain ⟨ts, us, hsplit, -, hpos, hposition, hleaves⟩ := H.exists_split
  have hindex := map_index_tokenize source
  have hheld {t : Token} (ht : t ∈ tokenize source) : t.index < s.pos ↔ t ∈ ts := by
    rw [hsplit, List.append_assoc] at hindex ht
    rw [hpos]
    exact Token.index_lt_iff hindex ht
  have hbefore {t : Token} (ht : t ∈ tokenize source) :
      t.index < s.state.position ↔ t ∈ ts ++ s.state.pending := by
    rw [hsplit] at hindex ht
    rw [hposition]
    exact Token.index_lt_iff hindex ht
  constructor
  case pos_le =>
    rw [hpos, hposition, List.length_append]
    exact Nat.le_add_right _ _
  case position_lt =>
    rw [hposition, hsplit]
    simp only [List.length_append, List.length_cons]
    omega
  case pending =>
    intro t ht hle hlt
    have hmem := (List.mem_append.1 ((hbefore ht).1 hlt)).resolve_left fun hmem =>
      absurd ((hheld ht).2 hmem) (Nat.not_lt.2 hle)
    exact H.wf.isTrivia_pending t hmem
  case current =>
    intro t ht hcurrent
    have hlt : t.index < (ts ++ s.state.pending ++ [s.state.token]).length := by
      rw [hcurrent, hposition]
      simp only [List.length_append, List.length_singleton]
      omega
    rw [hsplit, List.append_cons] at hindex ht
    rcases List.mem_append.1 ((Token.index_lt_iff hindex ht).1 hlt) with hmem | hmem
    · rw [← List.append_cons, ← hsplit] at ht
      exact absurd ((hbefore ht).2 hmem) (Nat.not_lt.2 hcurrent.ge)
    · rw [List.mem_singleton.1 hmem]
      exact H.wf.isTrivia_token
  case owns =>
    intro t ht hlt
    have hsub : ts.Sublist (tokenize source) := by
      rw [hsplit, List.append_assoc]
      exact List.sublist_append_left _ _
    exact owns_of_perm H.rooted H.ids hleaves ((nodup_index_tokenize source).sublist (hsub.map _))
      ((hheld ht).1 hlt)
  case held =>
    intro c hc t htc
    have hmem := hleaves.mem_iff.1 ((mem_leavesAll_iff (filterMap_forest H.rooted)).2 ⟨c, hc, htc⟩)
    have ht : t ∈ tokenize source := by
      rw [hsplit, List.append_assoc]
      exact List.mem_append_left _ hmem
    exact ⟨ht, (hheld ht).2 hmem⟩
  case ids =>
    rw [nodes, Cursor.map_id_ofElements]
    exact H.ids

/-- The first node of a text that does not start with trivia is started in front of all tokens. -/
theorem exists_begin (hfirst : ∀ t ∈ (tokenize source).head?, t.isTrivia = false)
    (limits : Limits) (kind : NodeKind) :
    ∃ t, (begin source limits).start kind = some (0, t) ∧ t.Held source := by
  let s := State.ofStream (TokenStream.ofChars source.toList)
  have hunattached : s.unattached = tokenize source := State.unattached_ofStream _
  have hpending : s.pending = [] := by
    cases hp : s.pending with
    | nil => rfl
    | cons u us =>
      have hmem : u ∈ (tokenize source).head? := by
        rw [← hunattached, State.unattached, hp]
        rfl
      have htrivia := (State.wf_ofStream source.toList).isTrivia_pending u (hp ▸ .head _)
      rw [hfirst u hmem] at htrivia
      cases htrivia
  let t : Session := { begin source limits with
    state := s.opened
    frames := [⟨0, kind, []⟩] }
  refine ⟨t, ?_, (State.wf_ofStream source.toList).opened, .of_open rfl rfl, ⟨[], ?_, .refl _⟩,
    .refl _⟩
  · rw [start_eq, show (begin source limits).state.pending = [] from hpending]
    rfl
  · rw [← hunattached, State.unattached, hpending]
    rfl

theorem Reached.held (hfirst : ∀ t ∈ (tokenize source).head?, t.isTrivia = false) {limits : Limits}
    (h : Reached source limits s) : s.Held source := by
  induction h with
  | @start kind answer s h =>
    obtain ⟨t, ht, H⟩ := exists_begin hfirst limits kind
    rw [Session.perform, ht] at h
    cases h
    exact H
  | @perform s t op answer _ h ih =>
    obtain ⟨_, u, hu, hadvances⟩ := Held.perform op s ih
    rw [h] at hu
    cases hu
    exact hadvances.held
  | enter _ ih => exact ih.enter

/-- Closing the session gives every token its owner. -/
theorem Held.exists_close (H : s.Held source) :
    ∃ t root, s.close = some t ∧ s.complete = some (root, t.errors) ∧
      (t.nodes.map Cursor.id).Nodup ∧ ∀ token ∈ tokenize source, t.Owns token := by
  let file : Node := (Rule.file s.limits s.room s.state).value
  obtain ⟨hfile, n, hnumbers⟩ := Rule.file_holds s.limits s.room H.wf
  have hrun : s.run (Rule.file s.limits s.room) =
      some (file, { s with state := (Rule.file s.limits s.room s.state).state }) := rfl
  obtain ⟨t, ht, hgains, -⟩ :=
    exists_attach (H.rooted.withState (Rule.file s.limits s.room s.state).state) file.toElement
  obtain ⟨u, hu, hgains', hframes⟩ := exists_closeAll hgains.rooted rfl
  have hgains := hgains.trans hgains'
  have hclose : s.close = some u := by
    simp only [close, hrun, Option.bind_eq_bind, Option.bind_some, ht, hu]
  have hids : (idsAll u.forest).Perm (List.range n) := by
    refine hgains.ids.trans ((H.ids.append_right _).trans (.of_eq ?_))
    rw [List.append_nil, idsAll, idsAll, List.append_nil, hnumbers]
  have hleaves : (leavesAll u.forest).Perm (tokenize source) := by
    obtain ⟨ts, hts, hleaves⟩ := H.leaves
    refine hgains.leaves.trans ((hleaves.append_right _).trans (.of_eq ?_))
    rw [hts, List.append_nil, leavesAll, leavesAll, List.append_nil, hfile]
  obtain ⟨root, hroot⟩ := Option.isSome_iff_exists.1 (hgains.rooted.root hframes)
  refine ⟨u, root, hclose, ?_, ?_, fun token htoken => ?_⟩
  · simp only [complete, hclose, Option.bind_eq_bind, Option.bind_some, hroot, Option.pure_def]
  · rw [nodes, Cursor.map_id_ofElements]
    exact hids.nodup_iff.2 List.nodup_range
  · exact owns_of_perm hgains.rooted hids hleaves (nodup_index_tokenize source) htoken

/-- In a text that does not start with trivia a session can be started, and whatever operations
follow it stays coherent: each of them succeeds, takes nothing back and leaves the depth as it was.
Closing the session gives every token of the text its one owner. -/
theorem reached_coherent (hfirst : ∀ t ∈ (tokenize source).head?, t.isTrivia = false)
    (limits : Limits) :
    (∀ kind, ∃ answer s, (begin source limits).perform (.start kind) = some (answer, s)) ∧
      ∀ s, Reached source limits s → s.Coherent source ∧
        (∀ op, ∃ answer t, s.perform op = some (answer, t) ∧ s.pos ≤ t.pos ∧
          s.state.position ≤ t.state.position ∧ s.errors.length ≤ t.errors.length ∧
            t.depth = s.depth) ∧
        ∃ t root, s.close = some t ∧ s.complete = some (root, t.errors) ∧
          (t.nodes.map Cursor.id).Nodup ∧ ∀ token ∈ tokenize source, t.Owns token := by
  refine ⟨fun kind => ?_, fun s h => ?_⟩
  · obtain ⟨s, hs, -⟩ := exists_begin hfirst limits kind
    exact ⟨.node 0, s, by rw [Session.perform, hs]; rfl⟩
  · have H := h.held hfirst
    refine ⟨H.coherent, fun op => ?_, H.exists_close⟩
    obtain ⟨answer, t, ht, hadvances⟩ := Held.perform op s H
    exact ⟨answer, t, ht, hadvances.pos_le, hadvances.position_le, hadvances.errors_le,
      hadvances.depth⟩

/-- More nodes closed than started, then a token that goes to the first node, and a node that stands
alone. -/
theorem reached_coherent_unbalanced :
    (∀ t ∈ (tokenize "x = 1").head?, t.isTrivia = false) ∧
      ∃ s, (begin "x = 1" .standard).performAll
        [.start .file, .finish, .finish, .bump, .start .value] = some s ∧ s.frames.length = 1 ∧
          s.root.isSome = true ∧ s.Coherent "x = 1" := by
  have hfirst : ∀ t ∈ (tokenize "x = 1").head?, t.isTrivia = false := by decide +kernel
  obtain ⟨hstart, hreached⟩ := reached_coherent hfirst .standard
  obtain ⟨_, s₁, h₁⟩ := hstart .file
  have r₁ := Reached.start h₁
  obtain ⟨_, s₂, h₂, -⟩ := (hreached s₁ r₁).2.1 .finish
  have r₂ := r₁.perform h₂
  obtain ⟨_, s₃, h₃, -⟩ := (hreached s₂ r₂).2.1 .finish
  have r₃ := r₂.perform h₃
  obtain ⟨_, s₄, h₄, -⟩ := (hreached s₃ r₃).2.1 .bump
  have r₄ := r₃.perform h₄
  obtain ⟨_, s₅, h₅, -⟩ := (hreached s₄ r₄).2.1 (.start .value)
  have r₅ := r₄.perform h₅
  have hall : (begin "x = 1" .standard).performAll
      [.start .file, .finish, .finish, .bump, .start .value] = some s₅ := by
    simp only [performAll, h₁, h₂, h₃, h₄, h₅, Option.bind_eq_bind, Option.bind_some]
  have hopen : ((begin "x = 1" .standard).performAll
      [.start .file, .finish, .finish, .bump, .start .value]).map
        (fun s => (s.frames.length, s.root.isSome)) = some (1, true) := by decide +kernel
  rw [hall] at hopen
  obtain ⟨hframes, hroot⟩ := Prod.mk.inj (Option.some.inj hopen)
  exact ⟨hfirst, s₅, hall, hframes, hroot, (hreached s₅ r₅).1⟩

end Session

end Blueprint
