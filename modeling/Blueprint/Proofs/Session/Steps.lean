import Blueprint.Proofs.Grammar.Places
import Blueprint.Proofs.Session.Arena

/-!
# Operations of a session

`Held source s`: the nodes of the session hold the tokens of the text in front of its state, each
once. Every operation succeeds from such a session, leads to one and takes nothing back
(`Held.perform`). A rule is a run, and what a run emits is what it takes; starting a node attaches
the trivia that waits, and closing a node moves no token.
-/

namespace Blueprint

open Element

namespace SyntaxError

theorem length_recorded_le {es fs : List SyntaxError} (h : es <:+ fs) :
    (recorded es).length ≤ (recorded fs).length := by
  obtain ⟨gs, rfl⟩ := h
  induction gs with
  | nil => exact Nat.le_refl _
  | cons g gs ih =>
    rw [List.cons_append, recorded]
    split
    · exact ih
    · exact Nat.le_succ_of_le ih

end SyntaxError

namespace Session

/-- The nodes of the session hold the tokens in front of its state. -/
structure Held (source : String) (s : Session) : Prop where
  wf : s.state.WF
  rooted : s.Rooted
  leaves : ∃ ts, tokenize source = ts ++ s.state.unattached ∧ (leavesAll s.forest).Perm ts
  ids : (idsAll s.forest).Perm (List.range s.state.nodes)

/-- From `s` to `t` nothing goes back. -/
structure Advances (source : String) (s t : Session) : Prop where
  held : t.Held source
  pos_le : s.pos ≤ t.pos
  position_le : s.state.position ≤ t.state.position
  errors_le : s.errors.length ≤ t.errors.length
  depth : t.depth = s.depth

variable {source : String} {s t u : Session}

theorem errors_length (s : Session) :
    s.errors.length = (SyntaxError.recorded s.state.raised).length := List.length_reverse

theorem start_eq (s : Session) (kind : NodeKind) :
    s.start kind = (({ s with state := s.state.opened } : Session).attachAll
      (s.state.pending.map .token)).map fun t =>
        (s.state.nodes, { t with frames := ⟨s.state.nodes, kind, []⟩ :: t.frames }) := by
  have hreply : (do Rule.flush; Rule.freshId : Rule Nat) s.state =
      ⟨s.state.nodes, s.state.pending.map .token, s.state.opened⟩ := by
    simp only [Rule.flush, Rule.freshId, Rule.bind_apply, State.opened, List.append_nil]
  rw [Session.start, Session.run, hreply]
  cases ({ s with state := s.state.opened } : Session).attachAll _ <;> rfl

namespace Held

/-- The tokens of the text: those in the nodes, the trivia that waits, the current one, the rest. -/
theorem exists_split (H : s.Held source) :
    ∃ ts us, tokenize source = ts ++ s.state.pending ++ s.state.token :: us ∧
      us.length = s.state.rest.length ∧ s.pos = ts.length ∧
      s.state.position = (ts ++ s.state.pending).length ∧ (leavesAll s.forest).Perm ts := by
  obtain ⟨ts, hts, hleaves⟩ := H.leaves
  obtain ⟨us, hus⟩ := s.state.exists_token_cons
  have hsplit : tokenize source = ts ++ s.state.pending ++ s.state.token :: us := by
    rw [hts, State.unattached, List.append_assoc s.state.pending, hus, ← List.append_assoc]
  have hindex := map_index_tokenize source
  have hlength := congrArg List.length hus
  rw [List.length_append, List.length_singleton, List.length_cons] at hlength
  refine ⟨ts, us, hsplit, (Nat.succ.inj hlength).symm, ?_, ?_, hleaves⟩
  · rw [hts] at hindex
    rw [pos]
    cases hu : s.state.unattached with
    | nil => exact absurd hu (List.append_ne_nil_of_right_ne_nil _ (List.cons_ne_nil _ _))
    | cons v vs =>
      rw [hu] at hindex
      exact Token.index_eq_length hindex
  · rw [hsplit] at hindex
    exact Token.index_eq_length hindex

/-- How far the session has come is a matter of what is still to come. -/
theorem length_tokenize (H : s.Held source) :
    (tokenize source).length = s.pos + s.state.unattached.length ∧
      (tokenize source).length = s.state.position + (s.state.rest.length + 1) := by
  obtain ⟨ts, us, hsplit, hlength, hpos, hposition, -⟩ := H.exists_split
  rw [hsplit, hpos, hposition, State.unattached]
  simp only [List.length_append, List.length_cons, List.length_nil]
  omega

/-- A session whose state has moved on, and whose nodes got what was passed. -/
theorem gains (H : s.Held source) {u : State} {es : List Element} (hwf : u.WF)
    (hleaves : leavesAll es ++ u.unattached = s.state.unattached)
    (hids : List.range s.state.nodes ++ idsAll es = List.range u.nodes)
    (hgains : ({ s with state := u } : Session).Gains es t) : t.Held source where
  wf := hgains.state ▸ hwf
  rooted := hgains.rooted
  leaves := by
    obtain ⟨ts, hts, hperm⟩ := H.leaves
    refine ⟨ts ++ leavesAll es, ?_, hgains.leaves.trans (hperm.append_right _)⟩
    rw [hts, hgains.state, List.append_assoc, hleaves]
  ids := by
    rw [hgains.state]
    exact hids ▸ hgains.ids.trans (H.ids.append_right _)

theorem advances (H : s.Held source) (H' : t.Held source)
    (hunattached : t.state.unattached.length ≤ s.state.unattached.length)
    (hrest : t.state.rest.length ≤ s.state.rest.length)
    (hraised : s.state.raised <:+ t.state.raised) (hdepth : t.depth = s.depth) :
    s.Advances source t := by
  obtain ⟨hpos, hposition⟩ := H.length_tokenize
  obtain ⟨hpos', hposition'⟩ := H'.length_tokenize
  refine ⟨H', by omega, by omega, ?_, hdepth⟩
  rw [errors_length, errors_length]
  exact SyntaxError.length_recorded_le hraised

/-- A rule that runs never fails, and what it emits finds its place. -/
theorem run {α : Type} {r : Rule α} (H : s.Held source) (hr : r.Runs) :
    ∃ t, s.run r = some ((r s.state).value, t) ∧ s.Advances source t := by
  have hrun := hr s.state
  obtain ⟨t, ht, hgains, -⟩ := exists_attachAll (H.rooted.withState (r s.state).state)
    (r s.state).emitted
  have hleaves := hrun.leavesAll_append_unattached
  have H' := H.gains (hrun.wf H.wf) hleaves hrun.range_nodes_append_idsAll hgains
  have hlength := congrArg List.length hleaves
  rw [List.length_append] at hlength
  refine ⟨t, ?_, H.advances H' ?_ ?_ ?_ hgains.depth⟩
  · rw [Session.run, ht]
    rfl
  · rw [hgains.state]
    exact Nat.le_of_add_left_le hlength.le
  · rw [hgains.state]
    exact hrun.rest_suffix.length_le
  · rw [hgains.state]
    exact hrun.raised_suffix

/-- The same with an answer made from the value of the rule. -/
theorem run_answer {α : Type} {r : Rule α} (H : s.Held source) (hr : r.Runs) (g : α → Answer) :
    ∃ answer t, (do
      let (a, t) ← s.run r
      return (g a, t)) = some (answer, t) ∧ s.Advances source t := by
  obtain ⟨t, ht, hadvances⟩ := H.run hr
  exact ⟨g (r s.state).value, t, by rw [ht]; rfl, hadvances⟩

/-- Where there is a node, another one can be started. -/
theorem start (H : s.Held source) (kind : NodeKind) :
    ∃ id t, s.start kind = some (id, t) ∧ s.Advances source t := by
  obtain ⟨t, ht, hgains, -⟩ := exists_attachAll (H.rooted.withState s.state.opened)
    (s.state.pending.map .token)
  let u : Session := { t with frames := ⟨s.state.nodes, kind, []⟩ :: t.frames }
  have hstate : u.state = s.state.opened := hgains.state
  have hunattached : s.state.pending ++ s.state.opened.unattached = s.state.unattached :=
    (List.append_assoc _ _ _).symm
  have H' : u.Held source := by
    refine ⟨hstate ▸ H.wf.opened, .of_open rfl hgains.rooted.alone, ?_, ?_⟩
    · obtain ⟨ts, hts, hleaves⟩ := H.leaves
      refine ⟨ts ++ s.state.pending, ?_, ?_⟩
      · rw [hts, hstate, List.append_assoc, hunattached]
      · rw [leavesAll_forest_open]
        refine hgains.leaves.trans ?_
        rw [leavesAll_map_token]
        exact hleaves.append_right _
    · rw [idsAll_forest_open, hstate, State.opened, List.range_succ]
      refine List.Perm.append_right _ (hgains.ids.trans ?_)
      rw [idsAll_map_token, List.append_nil]
      exact H.ids
  refine ⟨s.state.nodes, u, ?_, H.advances H' ?_ ?_ ?_ hgains.depth⟩
  · rw [start_eq, ht]
    rfl
  · rw [hstate, ← hunattached, List.length_append]
    exact Nat.le_add_left _ _
  · rw [hstate]
    exact Nat.le_refl _
  · rw [hstate]
    exact List.suffix_rfl

theorem finish (H : s.Held source) : ∃ t, s.finish = some t ∧ s.Advances source t := by
  obtain ⟨t, ht, hgains, -⟩ := exists_finish H.rooted
  have H' : t.Held source := H.gains H.wf rfl (List.append_nil _) hgains
  refine ⟨t, ht, H.advances H' ?_ ?_ ?_ hgains.depth⟩ <;> rw [hgains.state]

theorem enter (H : s.Held source) : s.enter.Held source :=
  ⟨H.wf, ⟨H.rooted.root, H.rooted.alone⟩, H.leaves, H.ids⟩

end Held

namespace Advances

theorem refl (H : s.Held source) : s.Advances source s :=
  ⟨H, Nat.le_refl _, Nat.le_refl _, Nat.le_refl _, rfl⟩

theorem trans (H : s.Advances source t) (H' : t.Advances source u) : s.Advances source u :=
  ⟨H'.held, H.pos_le.trans H'.pos_le, H.position_le.trans H'.position_le,
    H.errors_le.trans H'.errors_le, H'.depth.trans H.depth⟩

/-- What was done one level deeper was done. -/
theorem leave (H : s.enter.Advances source t) : s.Advances source t.leave := by
  refine ⟨?_, H.pos_le, H.position_le, H.errors_le, ?_⟩
  · have h := H.held
    exact ⟨h.wf, ⟨h.rooted.root, h.rooted.alone⟩, h.leaves, h.ids⟩
  · rw [Session.leave, H.depth]
    rfl

end Advances

end Session

theorem Production.runs_rule (limits : Limits) (room : Nat) (production : Production) :
    (production.rule limits room).Runs := by
  have hinner := Rule.Runs.inherited.innerAt limits room
  have hvalue := Rule.Runs.inherited.value limits hinner
  cases production with
  | blueprint => exact Rule.Runs.inherited.blueprint limits room
  | «variable» => exact Rule.Runs.inherited.variableDef limits room
  | members => exact Rule.Runs.inherited.members limits hvalue
  | pair => exact Rule.Runs.inherited.pairOf limits hvalue
  | object => exact Rule.Runs.inherited.object limits hinner
  | value => exact hvalue
  | stringExpr => exact Rule.Runs.inherited.stringExpr limits
  | arrayExpr => exact Rule.Runs.inherited.arrayExpr limits _
  | array => exact Rule.Runs.inherited.array limits _
  | elements => exact Rule.Runs.inherited.elements limits
  | arrayElement => exact Rule.Runs.inherited.arrayElement
  | variableRefExpr => exact Rule.Runs.inherited.variableRefExpr limits hinner

theorem Landing.runs_skip (limits : Limits) (landing : Landing) : (landing.skip limits).Runs := by
  cases landing <;> exact Rule.Runs.inherited.skipUntil limits _

namespace Session

variable {source : String} {s t u : Session}

mutual

/-- Every operation succeeds, and nothing goes back. -/
theorem Held.perform : ∀ (op : Operation) (s : Session), s.Held source →
    ∃ answer t, s.perform op = some (answer, t) ∧ s.Advances source t
  | .start kind, s, H => by
    obtain ⟨id, t, ht, hadvances⟩ := H.start kind
    exact ⟨.node id, t, by rw [Session.perform, ht]; rfl, hadvances⟩
  | .finish, s, H => by
    obtain ⟨t, ht, hadvances⟩ := H.finish
    exact ⟨.none, t, by rw [Session.perform, ht]; rfl, hadvances⟩
  | .bump, _, H => H.run_answer .bump fun _ => .none
  | .eat kind, _, H => H.run_answer (Rule.Runs.inherited.eat kind) .flag
  | .expect kind, _, H => H.run_answer (Rule.Runs.inherited.expect kind) .flag
  | .raise _, _, H => H.run_answer .raise fun _ => .none
  | .raiseExpected expected, _, H =>
    H.run_answer (Rule.Runs.inherited.raiseExpected expected) fun _ => .none
  | .raiseMissingValue start, _, H =>
    H.run_answer (Rule.Runs.inherited.raiseMissingValue start) fun _ => .none
  | .items, s, H =>
    H.run_answer (Rule.Runs.inherited.items s.limits s.room s.limits.maxIterations) fun _ => .none
  | .produce production, s, H => H.run_answer (production.runs_rule s.limits s.room) .outcome
  | .skipTo landing, s, H => H.run_answer (landing.runs_skip s.limits) .flag
  | .skipGroup, s, H => H.run_answer (Rule.Runs.inherited.skipGroup s.limits) .node
  | .skipChain, s, H => H.run_answer (Rule.Runs.inherited.skipChain s.limits) .node
  | .deeper operations, s, H => by
    obtain ⟨t, ht, hadvances⟩ := Held.performAll operations s.enter H.enter
    exact ⟨.none, t.leave, by rw [Session.perform, ht]; rfl, hadvances.leave⟩

theorem Held.performAll : ∀ (operations : List Operation) (s : Session), s.Held source →
    ∃ t, s.performAll operations = some t ∧ s.Advances source t
  | [], s, H => ⟨s, rfl, .refl H⟩
  | op :: ops, s, H => by
    obtain ⟨answer, t, ht, hadvances⟩ := Held.perform op s H
    obtain ⟨u, hu, hadvances'⟩ := Held.performAll ops t hadvances.held
    exact ⟨u, by rw [Session.performAll, ht]; exact hu, hadvances.trans hadvances'⟩

end

end Session

end Blueprint
