import Blueprint.Session.Chain
import Blueprint.Proofs.Session.Steps
import Blueprint.Proofs.Grammar.Fits.File

/-!
# Chains of references

A chain of references can be read in three ways: by the loop of a session, which starts two nodes for
each link and closes all of them at the end (`Session.chain`), by the rule of the grammar, and by plain
recursion (`Rule.reference`). They leave the same (`Session.chain_eq_reference`).

Running a rule in a session is running its parts one after the other (`Session.run_bind`), and a node
is started, filled and finished (`Session.run_node`). The levels that were entered have no part in it.
-/

namespace Blueprint

/-! ### Plain recursion -/

namespace Rule

variable {α β : Type}

/-- A rule in front of two others matters to them by what it leaves. -/
theorem bind_congr {r : Rule α} {f g : α → Rule β} {s : State}
    (h : f (r s).value (r s).state = g (r s).value (r s).state) : (r >>= f) s = (r >>= g) s := by
  rw [bind_apply, bind_apply, h]

theorem view_bind_apply (f : State → α) (g : α → Rule β) (s : State) :
    (view f >>= g) s = g (f s) s := rfl

theorem isAt_bind_apply (kind : TokenKind) (f : Bool → Rule α) (s : State) :
    (isAt kind >>= f) s = f (s.current == kind) s := rfl

theorem succeeds_nodeOutcome (kind : NodeKind) (body : Rule Bool) :
    succeeds (nodeOutcome kind body) = do
      let r ← node kind body
      return r.2 := by
  funext s
  simp only [succeeds, nodeOutcome, bind_apply, pure_apply, List.append_nil]
  cases (node kind body s).value.2 <;> rfl

/-- A value that is no reference. -/
theorem value_eq_nodeOutcome (limits : Limits) (inner : Option Inner) {s : State}
    (hstart : s.current ∈ valueStart) (href : s.current ≠ .variableValueRef) :
    value limits inner s = nodeOutcome .value (operand limits inner) s := by
  have hat : (s.opened.current == .variableValueRef) = false := beq_false_of_ne href
  rw [value, isAtAny, bind_apply, view_apply]
  simp only [List.contains_iff_mem.2 hstart, if_true, nodeOutcome, bind_apply, node_apply, isAt,
    view_apply, hat, Bool.false_eq_true, if_false, List.nil_append]

/-- A reference and, after a `+`, the tail as a value. A reference in the tail is entered one level
deeper, or reported and skipped when no level is left. -/
def reference (limits : Limits) (room : Nat) : Rule Outcome := do
  if ← isAt .variableValueRef then
    nodeOutcome .variableRefExpr do
      bump
      if ← view State.atTail then
        bump
        if ← isAt .variableValueRef then
          match room with
          | 0 =>
            raiseHere (.nestingTooDeep limits.maxDepth)
            let _ ← skipChain limits
            return false
          | room + 1 => succeeds (nodeOutcome .value (succeeds fun s => reference limits room s))
        else
          succeeds (value limits (innerAt limits room))
      else
        return true
  else
    return .noMatch

/-- A node inside a new node, whether it is complete. -/
theorem succeeds_nested (kind kind' : NodeKind) (body : Rule Bool) :
    (do
      let r ← node kind (node kind' body)
      return r.2.2) = succeeds (nodeOutcome kind (succeeds (nodeOutcome kind' body))) := by
  funext s
  simp only [succeeds_nodeOutcome, bind_apply, node_apply, pure_apply, List.append_nil]

theorem nodeOutcome_congr {kind : NodeKind} {body body' : Rule Bool} {s : State}
    (h : body s.opened = body' s.opened) : nodeOutcome kind body s = nodeOutcome kind body' s := by
  simp only [nodeOutcome, bind_apply, node_apply, h]

theorem succeeds_congr {r r' : Rule Outcome} {s : State} (h : r s = r' s) :
    succeeds r s = succeeds r' s := by
  simp only [succeeds, bind_apply, h]

/-- With a round for each token, the links of the grammar are the plain recursion. -/
theorem nodeOutcome_links (limits : Limits) (budget : Nat) :
    ∀ (room : Nat) (s : State), s.WF → s.current = .variableValueRef → s.rest.length ≤ budget →
      nodeOutcome .variableRefExpr (links limits (innerAt limits room) budget) s =
        reference limits room s := by
  induction budget with
  | zero =>
    intro room s H hcurrent hbudget
    obtain ⟨ks, hkinds⟩ := H.exists_kinds hcurrent nofun
    obtain ⟨t, ts, hrest, -⟩ := H.exists_rest hkinds
    rw [hrest] at hbudget
    cases hbudget
  | succ budget ih =>
    intro room s H hcurrent hbudget
    have hat : (s.current == .variableValueRef) = true := beq_iff_eq.2 hcurrent
    have Ht : (bump s.opened).state.WF := (Runs.bump _).wf H.opened
    have hlt : (bump s.opened).state.rest.length < s.rest.length := by
      obtain ⟨ks, hkinds⟩ := H.exists_kinds hcurrent nofun
      obtain ⟨t, ts, hrest, -⟩ := H.exists_rest hkinds
      rw [bump_cons (s := s.opened) hrest, hrest]
      exact Nat.lt_succ_of_le (State.rest_passed_suffix s.opened t ts).length_le
    rw [reference.eq_def, isAt_bind_apply, if_pos hat]
    refine nodeOutcome_congr (bind_congr ?_)
    rw [view_bind_apply, view_bind_apply]
    by_cases htail : (bump s.opened).state.atTail = true
    · rw [if_pos htail, if_pos htail]
      refine bind_congr ?_
      rw [isAt_bind_apply, isAt_bind_apply]
      have Hu : (bump (bump s.opened).state).state.WF := (Runs.bump _).wf Ht
      have hstart := Ht.current_bump_of_atTail htail
      by_cases href : ((bump (bump s.opened).state).state.current == .variableValueRef) = true
      · rw [if_pos href, if_pos href]
        cases room with
        | zero => rfl
        | succ room =>
          have hrest := (Runs.bump (bump s.opened).state).rest_suffix.length_le
          refine (congrFun (succeeds_nested _ _ _) _).trans (succeeds_congr (nodeOutcome_congr
            (succeeds_congr (ih room _ Hu.opened (beq_iff_eq.1 href) ?_))))
          exact hrest.trans (Nat.le_of_lt_succ (hlt.trans_le hbudget))
      · rw [if_neg href, if_neg href, succeeds_congr (value_eq_nodeOutcome limits
          (innerAt limits room) hstart (beq_eq_false_iff_ne.1 (eq_false_of_ne_true href))),
          succeeds_nodeOutcome]
    · rw [if_neg htail, if_neg htail]

end Rule

namespace Session

variable {α β : Type} {s t : Session}

/-! ### Rules in a session, part by part -/

/-- The session with so many levels entered and another state. -/
def placed (s : Session) (depth : Nat) (u : State) : Session := { s with depth := depth, state := u }

/-- The session with one more node open. -/
def opening (s : Session) (f : Frame) : Session := { s with frames := f :: s.frames }

theorem attachAll_append (s : Session) (es fs : List Element) :
    s.attachAll (es ++ fs) = (s.attachAll es).bind (·.attachAll fs) := by
  induction es generalizing s with
  | nil => rfl
  | cons e es ih =>
    rw [List.cons_append, attachAll, attachAll]
    cases s.attach e with
    | none => rfl
    | some t => exact ih t

/-- Where an element goes is no matter of the state or of the levels that are entered. -/
theorem attach_placed (s : Session) (depth : Nat) (u : State) (e : Element) :
    (s.placed depth u).attach e = (s.attach e).map (·.placed depth u) := by
  obtain ⟨limits, d, frames, root, alone, state⟩ := s
  cases frames with
  | cons f fs => rfl
  | nil => cases root <;> cases e <;> rfl

theorem attachAll_placed (s : Session) (depth : Nat) (u : State) (es : List Element) :
    (s.placed depth u).attachAll es = (s.attachAll es).map (·.placed depth u) := by
  induction es generalizing s with
  | nil => rfl
  | cons e es ih =>
    rw [attachAll, attachAll, attach_placed]
    cases s.attach e with
    | none => rfl
    | some t => exact ih t

theorem limits_attach {e : Element} (h : s.attach e = some t) : t.limits = s.limits := by
  obtain ⟨limits, d, frames, root, alone, state⟩ := s
  cases frames with
  | cons f fs => cases h; rfl
  | nil => cases root <;> cases e <;> cases h <;> rfl

theorem limits_attachAll {es : List Element} (h : s.attachAll es = some t) :
    t.limits = s.limits := by
  induction es generalizing s with
  | nil => cases h; rfl
  | cons e es ih =>
    rw [attachAll] at h
    obtain ⟨u, hu, h⟩ := Option.bind_eq_some_iff.1 h
    exact (ih h).trans (limits_attach hu)

/-- While a node is open, it gets what is emitted. -/
theorem attachAll_opening (s : Session) (f : Frame) (es : List Element) :
    (s.opening f).attachAll es = some (s.opening { f with children := f.children ++ es }) := by
  induction es generalizing f with
  | nil => rw [List.append_nil]; rfl
  | cons e es ih =>
    refine (ih { f with children := f.children ++ [e] }).trans ?_
    rw [List.append_assoc]
    rfl

theorem run_eq (s : Session) (r : Rule α) :
    s.run r = (s.attachAll (r s.state).emitted).map fun t =>
      ((r s.state).value, t.placed s.depth (r s.state).state) := by
  have h := s.attachAll_placed s.depth (r s.state).state (r s.state).emitted
  refine (congrArg (Option.bind · _) h).trans ?_
  cases s.attachAll (r s.state).emitted <;> rfl

theorem run_congr {r r' : Rule α} (h : r s.state = r' s.state) : s.run r = s.run r' := by
  rw [run_eq, run_eq, h]

@[simp] theorem run_pure (s : Session) (a : α) : s.run (pure a : Rule α) = some (a, s) := rfl

@[simp] theorem run_view (s : Session) (f : State → α) :
    s.run (Rule.view f) = some (f s.state, s) := rfl

@[simp] theorem run_isAt (s : Session) (kind : TokenKind) :
    s.run (Rule.isAt kind) = some (s.state.current == kind, s) := rfl

theorem run_bind (s : Session) (r : Rule α) (f : α → Rule β) :
    s.run (r >>= f) = (s.run r).bind fun a => a.2.run (f a.1) := by
  rw [run_eq, run_eq, Rule.bind_apply, attachAll_append]
  cases s.attachAll (r s.state).emitted with
  | none => rfl
  | some t =>
    change _ = (t.placed s.depth (r s.state).state).run (f (r s.state).value)
    rw [run_eq, attachAll_placed, Option.map_map]
    rfl

/-- Running a rule changes neither the limits nor the levels that are entered. -/
theorem of_run {r : Rule α} {a : α} (h : s.run r = some (a, t)) :
    t.limits = s.limits ∧ t.depth = s.depth ∧ t.state = (r s.state).state := by
  rw [run_eq] at h
  obtain ⟨u, hu, h⟩ := Option.map_eq_some_iff.1 h
  cases h
  exact ⟨(limits_attachAll hu : u.limits = s.limits), rfl, rfl⟩

theorem start_eq_opening (s : Session) (kind : NodeKind) :
    s.start kind = (s.attachAll (s.state.pending.map .token)).map fun t =>
      (s.state.nodes, (t.placed s.depth s.state.opened).opening ⟨s.state.nodes, kind, []⟩) := by
  have h := s.attachAll_placed s.depth s.state.opened (s.state.pending.map .token)
  refine (start_eq s kind).trans ((congrArg (Option.map _) h).trans ?_)
  rw [Option.map_map]
  rfl

/-- A node is started, filled and finished. -/
theorem run_node (s : Session) (kind : NodeKind) (body : Rule α) :
    s.run (Rule.node kind body) = (s.start kind).bind fun a =>
      (a.2.run body).bind fun b => b.2.finish.map fun t => ((a.1, b.1), t) := by
  rw [run_eq, start_eq_opening, Rule.node_apply, attachAll_append]
  cases s.attachAll (s.state.pending.map .token) with
  | none => rfl
  | some t =>
    let r := body s.state.opened
    have hbody : ((t.placed s.depth s.state.opened).opening ⟨s.state.nodes, kind, []⟩).run body =
        some (r.value, (t.placed s.depth r.state).opening ⟨s.state.nodes, kind, r.emitted⟩) := by
      rw [run_eq, attachAll_opening]
      rfl
    have hfinish : ((t.placed s.depth r.state).opening ⟨s.state.nodes, kind, r.emitted⟩).finish =
        (t.attach (.node s.state.nodes kind (r.state.nodeSpan r.emitted) r.emitted)).map
          (·.placed s.depth r.state) := attach_placed t s.depth r.state _
    simp only [Option.bind_some, Option.map_some, hbody, hfinish, attachAll]
    cases t.attach (.node s.state.nodes kind (r.state.nodeSpan r.emitted) r.emitted) <;> rfl

/-! ### Levels -/

/-- The session with so many levels entered. -/
def atDepth (s : Session) (depth : Nat) : Session := s.placed depth s.state

theorem start_atDepth (s : Session) (depth : Nat) (kind : NodeKind) :
    (s.atDepth depth).start kind = (s.start kind).map fun a => (a.1, a.2.atDepth depth) := by
  rw [start_eq_opening, start_eq_opening, atDepth, attachAll_placed, Option.map_map, Option.map_map]
  rfl

theorem run_atDepth (s : Session) (depth : Nat) (r : Rule α) :
    (s.atDepth depth).run r = (s.run r).map fun a => (a.1, a.2.atDepth depth) := by
  rw [run_eq, run_eq, atDepth, attachAll_placed, Option.map_map, Option.map_map]
  rfl

theorem state_attach {e : Element} (h : s.attach e = some t) : t.state = s.state := by
  have h' : (s.placed s.depth s.state).attach e = some t := h
  rw [attach_placed, h] at h'
  exact (congrArg Session.state (Option.some.inj h')).symm

theorem finish_atDepth (s : Session) (depth : Nat) :
    (s.atDepth depth).finish = s.finish.map (·.atDepth depth) := by
  obtain ⟨limits, d, frames, root, alone, state⟩ := s
  cases frames with
  | nil => rfl
  | cons f fs =>
    let u : Session := ⟨limits, d, fs, root, alone, state⟩
    let e : Element := .node f.id f.kind (state.nodeSpan f.children) f.children
    change (u.atDepth depth).attach e = (u.attach e).map (·.atDepth depth)
    rw [atDepth, attach_placed]
    cases h : u.attach e with
    | none => rfl
    | some t => exact congrArg (fun v => some (t.placed depth v)) (state_attach h).symm

/-- Starting a node changes neither the limits nor the levels that are entered. -/
theorem of_start {kind : NodeKind} {id : Nat} (h : s.start kind = some (id, t)) :
    t.limits = s.limits ∧ t.depth = s.depth ∧ t.state = s.state.opened := by
  rw [start_eq_opening] at h
  obtain ⟨u, hu, h⟩ := Option.map_eq_some_iff.1 h
  cases h
  exact ⟨(limits_attachAll hu : u.limits = s.limits), rfl, rfl⟩

theorem depth_finish (h : s.finish = some t) : t.depth = s.depth := by
  have h' : s.finish = s.finish.map (·.atDepth s.depth) := finish_atDepth s s.depth
  rw [h] at h'
  have ht : t = t.atDepth s.depth := Option.some.inj h'
  rw [ht]
  rfl

theorem finish_lower (s : Session) (levels : Nat) :
    (s.lower levels).finish = s.finish.map (·.lower levels) := by
  refine (finish_atDepth s (s.depth - levels)).trans ?_
  cases h : s.finish with
  | none => rfl
  | some t => rw [Option.map_some, Option.map_some, lower, depth_finish h, atDepth, placed]

/-! ### The loop -/

/-- What the end of the loop is worth once all levels are left and all nodes closed. -/
def ChainEnd.close (e : ChainEnd) (s : Session) : Option (Bool × Session) :=
  ((s.lower e.levels).finishMany e.opened).map (e.ok, ·)

/-- A node inside a new node, filled one level deeper. -/
theorem run_nested (s : Session) (kind kind' : NodeKind) (body : Rule α) :
    (s.run do
      let r ← Rule.node kind (Rule.node kind' body)
      return r.2.2) =
    (s.enter.start kind).bind fun a => (a.2.start kind').bind fun b => (b.2.run body).bind fun c =>
      ((c.2.atDepth s.depth).finish.bind finish).map (c.1, ·) := by
  rw [run_bind, run_node, show s.enter = s.atDepth (s.depth + 1) from rfl, start_atDepth]
  cases hstart : s.start kind with
  | none => rfl
  | some a =>
    obtain ⟨i, t⟩ := a
    simp only [Option.bind_some, Option.map_some, run_node, start_atDepth]
    cases hstart' : t.start kind' with
    | none => rfl
    | some a =>
      obtain ⟨j, u⟩ := a
      simp only [Option.bind_some, Option.map_some, run_atDepth]
      cases hbody : u.run body with
      | none => rfl
      | some a =>
        obtain ⟨b, v⟩ := a
        have hdepth : v.depth = s.depth :=
          (of_run hbody).2.1.trans ((of_start hstart').2.1.trans (of_start hstart).2.1)
        have hv : (v.atDepth (s.depth + 1)).atDepth s.depth = v := by
          rw [← hdepth]
          rfl
        simp only [Option.bind_some, Option.map_some, hv]
        cases v.finish with
        | none => rfl
        | some w =>
          simp only [Option.bind_some, Option.map_some]
          cases w.finish <;> rfl

/-- Closing one link more is closing its two nodes, one level deeper, and then the others. -/
theorem close_link (ok : Bool) (levels opened : Nat) {s : Session} {depth : Nat}
    (h : s.depth = depth + 1) :
    (⟨ok, levels + 1, opened + 2⟩ : ChainEnd).close s =
      ((s.atDepth depth).finish.bind finish).bind (⟨ok, levels, opened⟩ : ChainEnd).close := by
  have hlower : s.lower (levels + 1) = (s.atDepth depth).lower levels := by
    rw [lower, h, Nat.add_sub_add_right]
    rfl
  simp only [ChainEnd.close, hlower, finishMany, finish_lower, Option.bind_eq_bind]
  cases (s.atDepth depth).finish with
  | none => rfl
  | some t =>
    simp only [Option.bind_some, Option.map_some, finish_lower]
    cases t.finish <;> rfl

/-- Two runs come to the same once what the loop of the first opened is closed, and so many levels
and nodes after the second. -/
def ClosesAs (levels opened : Nat) (loop : Option (ChainEnd × Session))
    (run : Option (Bool × Session)) : Prop :=
  loop.bind (fun a => a.1.close a.2) =
    run.bind fun b => (⟨b.1, levels, opened⟩ : ChainEnd).close b.2

theorem ClosesAs.bind {levels opened : Nat} {first : Option (α × Session)}
    {f : α × Session → Option (ChainEnd × Session)} {g : α × Session → Option (Bool × Session)}
    (h : ∀ a t, first = some (a, t) → ClosesAs levels opened (f (a, t)) (g (a, t))) :
    ClosesAs levels opened (first.bind f) (first.bind g) := by
  cases first with
  | none => rfl
  | some a => exact h a.1 a.2 rfl

/-- The session goes by the given limits, and so many levels are left. -/
structure Stands (limits : Limits) (room : Nat) (s : Session) : Prop where
  wf : s.state.WF
  limits_eq : s.limits = limits
  room_eq : s.room = room

namespace Stands

variable {limits : Limits} {room : Nat}

theorem run {r : Rule α} {a : α} (H : s.Stands limits room) (hr : r.Runs)
    (h : s.run r = some (a, t)) : t.Stands limits room := by
  obtain ⟨hlimits, hdepth, hstate⟩ := of_run h
  refine ⟨hstate ▸ (hr s.state).wf H.wf, hlimits.trans H.limits_eq, ?_⟩
  rw [Session.room, hlimits, hdepth]
  exact H.room_eq

theorem start {kind : NodeKind} {id : Nat} (H : s.Stands limits room)
    (h : s.start kind = some (id, t)) : t.Stands limits room := by
  obtain ⟨hlimits, hdepth, hstate⟩ := of_start h
  refine ⟨hstate ▸ H.wf.opened, hlimits.trans H.limits_eq, ?_⟩
  rw [Session.room, hlimits, hdepth]
  exact H.room_eq

theorem enter (H : s.Stands limits (room + 1)) : s.enter.Stands limits room :=
  ⟨H.wf, H.limits_eq, Nat.pred_eq_of_eq_succ H.room_eq⟩

theorem canEnter_iff (H : s.Stands limits room) : s.canEnter = true ↔ 0 < room := by
  rw [canEnter, decide_eq_true_iff, ← H.room_eq, Session.room, Nat.sub_pos_iff_lt]

/-- A reference that lies too deep is skipped. -/
theorem closesAs_tooDeep (H : s.Stands limits room) (levels opened : Nat) :
    ClosesAs levels opened
      (do
        let (_, s) ← s.run (Rule.raiseHere (.nestingTooDeep s.limits.maxDepth))
        let (_, s) ← s.run (Rule.skipChain s.limits)
        return (⟨false, levels, opened⟩, s))
      (s.run do
        Rule.raiseHere (.nestingTooDeep limits.maxDepth)
        let _ ← Rule.skipChain limits
        return false) := by
  simp only [run_bind, run_pure, H.limits_eq]
  refine ClosesAs.bind fun _ t ht => ?_
  simp only [(H.run (Rule.Runs.inherited.raiseHere _) ht).limits_eq]
  exact ClosesAs.bind fun _ _ _ => rfl

/-- What follows the `+` and is no reference is read as a value. -/
theorem closesAs_operand (H : s.Stands limits room) (levels opened : Nat)
    (hstart : s.state.current ∈ valueStart) (href : s.state.current ≠ .variableValueRef) :
    ClosesAs levels opened
      (do
        let (o, s) ← s.run (Rule.value s.limits (innerAt s.limits s.room))
        return (⟨o.isComplete, levels, opened⟩, s))
      (s.run do return (← Rule.node .value (Rule.operand limits (innerAt limits room))).2) := by
  have hvalue := Rule.value_eq_nodeOutcome limits (innerAt limits room) hstart href
  rw [H.limits_eq, H.room_eq, run_congr hvalue, Rule.nodeOutcome, run_bind, run_bind]
  cases s.run (Rule.node .value (Rule.operand limits (innerAt limits room))) with
  | none => rfl
  | some a =>
    obtain ⟨⟨_, ok⟩, t⟩ := a
    cases ok <;> rfl

/-- A link adds two nodes and one level to what is closed at the end. -/
theorem closesAs_link (H : s.Stands limits (room + 1)) (levels opened : Nat)
    {loop : Session → Option (ChainEnd × Session)} {links : Rule Bool}
    (hloop : ∀ t : Session, t.Stands limits room →
      ClosesAs (levels + 1) (opened + 2) (loop t) (t.run links)) :
    ClosesAs levels opened
      (do
        let (_, s) ← s.enter.start .value
        let (_, s) ← s.start .variableRefExpr
        loop s)
      (s.run do
        let tail ← Rule.node .value (Rule.node .variableRefExpr links)
        return tail.2.2) := by
  rw [run_nested]
  refine ClosesAs.bind fun _ t ht => ClosesAs.bind fun _ u hu => ?_
  refine (hloop u ((H.enter.start ht).start hu)).trans ?_
  have hdepth : u.depth = s.depth + 1 := (of_start hu).2.1.trans (of_start ht).2.1
  cases hlinks : u.run links with
  | none => rfl
  | some a =>
    obtain ⟨ok, v⟩ := a
    refine (close_link ok levels opened ((of_run hlinks).2.1.trans hdepth)).trans ?_
    simp only [Option.bind_some]
    cases (v.atDepth s.depth).finish.bind finish <;> rfl

end Stands

/-- The loop runs the links of the grammar, in the nodes and at the levels that are open. -/
theorem closesAs_chainLoop (limits : Limits) (budget : Nat) :
    ∀ (levels opened room : Nat) (s : Session), s.Stands limits room →
      ClosesAs levels opened (s.chainLoop budget levels opened)
        (s.run (Rule.links limits (innerAt limits room) budget)) := by
  induction budget with
  | zero =>
    intro levels opened room s _
    simp only [chainLoop, Rule.links, run_bind, run_pure]
    exact ClosesAs.bind fun _ _ _ => rfl
  | succ budget ih =>
    intro levels opened room s H
    rw [chainLoop]
    simp only [Rule.links, run_bind, run_view]
    refine ClosesAs.bind fun _ t ht => ?_
    have Ht := H.run .bump ht
    simp only [Option.bind_some]
    by_cases htail : t.state.atTail = true
    · simp only [if_pos htail, run_bind]
      refine ClosesAs.bind fun _ u hu => ?_
      have Hu := Ht.run .bump hu
      simp only [Option.bind_some, run_isAt]
      by_cases href : (u.state.current == .variableValueRef) = true
      · simp only [if_pos href]
        cases room with
        | zero =>
          simp only [Hu.canEnter_iff, Nat.lt_irrefl, if_false]
          exact Hu.closesAs_tooDeep levels opened
        | succ room =>
          simp only [Hu.canEnter_iff, Nat.succ_pos, if_true]
          exact Hu.closesAs_link levels opened fun v Hv => ih _ _ room v Hv
      · have hstart : u.state.current ∈ valueStart := by
          rw [(of_run hu).2.2]
          exact Ht.wf.current_bump_of_atTail htail
        simp only [if_neg href]
        exact Hu.closesAs_operand levels opened hstart
          (beq_eq_false_iff_ne.1 (eq_false_of_ne_true href))
    · simp only [if_neg htail]
      rfl

/-- The loop reads a reference as the grammar does. -/
theorem chain_eq (H : s.state.WF) :
    s.chain = s.run (Rule.variableRefExpr s.limits (innerAt s.limits s.room)) := by
  rw [chain, Rule.variableRefExpr, run_bind, run_isAt, Option.bind_some]
  by_cases href : (s.state.current == .variableValueRef) = true
  · simp only [if_pos href, Option.bind_eq_bind, Rule.nodeOutcome, run_bind, run_node, run_pure]
    cases hstart : s.start .variableRefExpr with
    | none => rfl
    | some a =>
      obtain ⟨id, t⟩ := a
      have hlimits := (of_start hstart).1
      have hloop := closesAs_chainLoop s.limits s.limits.maxIterations 0 1 s.room t
        (Stands.start ⟨H, rfl, rfl⟩ hstart)
      simp only [Option.bind_some, hlimits]
      refine Eq.trans ?_ ((congrArg (Option.map fun b => (Outcome.ofNode id b.1, b.2)) hloop).trans ?_)
      · cases t.chainLoop s.limits.maxIterations 0 1 with
        | none => rfl
        | some a =>
          obtain ⟨e, u⟩ := a
          simp only [Option.bind_some, ChainEnd.close]
          cases (u.lower e.levels).finishMany e.opened <;> rfl
      · cases t.run (Rule.links s.limits (innerAt s.limits s.room) s.limits.maxIterations) with
        | none => rfl
        | some b =>
          obtain ⟨ok, u⟩ := b
          simp only [Option.bind_some, ChainEnd.close, finishMany, Option.bind_eq_bind]
          change ((u.finish.bind some).map (ok, ·)).map _ = _
          cases u.finish <;> rfl
  · simp only [if_neg href, run_pure, Option.pure_def]

/-! ### Reaching the same -/

/-- A parse that has just started the node of the file. -/
def ofFile (source : String) (limits : Limits) : Session :=
  ⟨limits, 0, [⟨0, .file, []⟩], none, [], .start source⟩

theorem held_ofFile (source : String) (limits : Limits) : (ofFile source limits).Held source where
  wf := State.wf_start source
  rooted := .of_open rfl rfl
  leaves := ⟨[], (State.unattached_ofStream _).symm, .refl _⟩
  ids := .refl _

/-- Wherever a session stands at a reference, the loop, the rule of the grammar and the plain
recursion succeed and leave the same, if a loop may take a round for each token. The levels that were
entered for the links are left again. What is done in a session keeps it one that holds its tokens
(`held_ofFile`, `Held.perform`, `Held.enter`). -/
theorem chain_eq_reference {source : String} (H : s.Held source)
    (hrounds : (tokenize source).length ≤ s.limits.maxIterations)
    (hat : s.state.current = .variableValueRef) :
    ∃ o t, s.chain = some (o, t) ∧ s.run (Rule.reference s.limits s.room) = some (o, t) ∧
      s.run (Rule.variableRefExpr s.limits (innerAt s.limits s.room)) = some (o, t) ∧
        t.depth = s.depth := by
  have hruns := Rule.Runs.inherited.variableRefExpr s.limits
    (Rule.Runs.inherited.innerAt s.limits s.room)
  obtain ⟨t, ht, hadvances⟩ := H.run hruns
  have hrest : s.state.rest.length ≤ s.limits.maxIterations := by
    have h := H.length_tokenize.2
    omega
  have hreference : Rule.variableRefExpr s.limits (innerAt s.limits s.room) s.state =
      Rule.reference s.limits s.room s.state := by
    rw [Rule.variableRefExpr, Rule.isAt_bind_apply, if_pos (beq_iff_eq.2 hat)]
    exact Rule.nodeOutcome_links s.limits _ s.room s.state H.wf hat hrest
  exact ⟨_, t, (chain_eq H.wf).trans ht, (run_congr hreference).symm.trans ht, ht,
    hadvances.depth⟩

/-- A chain of three references when one level is left: the last one lies too deep. -/
theorem chain_eq_reference_too_deep :
    ∃ s, (ofFile "x = a + b + c" ⟨1, 20⟩).performAll [.start .variable, .bump, .bump] = some s ∧
      s.Held "x = a + b + c" ∧ (tokenize "x = a + b + c").length ≤ s.limits.maxIterations ∧
      s.state.current = .variableValueRef ∧
      ∃ o t, s.chain = some (o, t) ∧ s.run (Rule.reference s.limits s.room) = some (o, t) ∧
        s.run (Rule.variableRefExpr s.limits (innerAt s.limits s.room)) = some (o, t) ∧
          t.depth = s.depth := by
  obtain ⟨s, hs, hadvances⟩ := Held.performAll [.start .variable, .bump, .bump] _
    (held_ofFile "x = a + b + c" ⟨1, 20⟩)
  have hreached : ((ofFile "x = a + b + c" ⟨1, 20⟩).performAll
      [.start .variable, .bump, .bump]).map (fun s => (s.limits.maxIterations, s.state.current)) =
        some (20, .variableValueRef) := by decide +kernel
  rw [hs] at hreached
  obtain ⟨hlimit, hcurrent⟩ := Prod.mk.inj (Option.some.inj hreached)
  have hrounds : (tokenize "x = a + b + c").length ≤ s.limits.maxIterations := by
    rw [hlimit]
    decide +kernel
  exact ⟨s, hs, hadvances.held, hrounds, hcurrent,
    chain_eq_reference hadvances.held hrounds hcurrent⟩

end Session

end Blueprint
