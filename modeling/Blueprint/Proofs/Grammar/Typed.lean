import Blueprint.Proofs.Grammar.Fits

/-!
# Modules have types

The first thing inside a module is its type, a node over one token, however the rest of the module
went and whatever the limits are. What else a file holds are no modules (`Rule.types_contents`).
-/

namespace Blueprint

/-- A module starts with its type. -/
def Element.Typed (e : Element) : Prop :=
  ∀ i s cs, e = .node i .blueprint s cs → ∃ j s' t cs', t.kind = .blueprintTypeName ∧
    cs = .node j .blueprintType s' [.token t] :: cs'

theorem Element.typed_token (t : Token) : (token t).Typed := nofun

theorem Element.typed_of_mem_map_token {ts : List Token} {e : Element} (he : e ∈ ts.map .token) :
    e.Typed := by
  obtain ⟨t, -, rfl⟩ := List.mem_map.1 he
  exact typed_token t

open Element

namespace Rule

variable {α β : Type}

/-- Wherever the rule runs, the modules that it emits have types. -/
def Types (r : Rule α) : Prop := ∀ ⦃s : State⦄, s.WF → ∀ e ∈ (r s).emitted, e.Typed

namespace Types

variable {r r' : Rule α}

theorem pure {a : α} : (Pure.pure a : Rule α).Types := fun _ _ => nofun

theorem bind {f : α → Rule β} (hr : r.Runs) (h : r.Types) (hf : ∀ a, (f a).Types) :
    (r >>= f).Types := fun s H e he =>
  (List.mem_append.1 he).elim (h H e) (hf _ ((hr s).wf H) e)

theorem view_bind {g : State → α} {f : α → Rule β} (h : ∀ a, (f a).Types) :
    (Rule.view g >>= f).Types := fun s H => h (g s) H

theorem bind_pure {g : α → β} (h : r.Types) :
    (r >>= fun a => (Pure.pure (g a) : Rule β)).Types := fun _ H e he =>
  (List.mem_append.1 he).elim (h H e) nofun

theorem ite {c : Prop} [Decidable c] (h : r.Types) (h' : r'.Types) :
    (if c then r else r').Types := by
  split
  · exact h
  · exact h'

theorem of_raises {r : Rule Unit} (hr : r.Raises) : r.Types := by
  intro s _ e he
  obtain ⟨_, h⟩ := hr s
  rw [h] at he
  cases he

/-- A node that is no module. -/
theorem node {kind : NodeKind} (hkind : kind ≠ .blueprint) : (Rule.node kind r).Types := by
  intro s _ e he
  rw [node_apply] at he
  rcases List.mem_append.1 he with he | he
  · exact typed_of_mem_map_token he
  · obtain rfl := List.mem_singleton.1 he
    intro i s cs h
    exact absurd (Element.node.inj h).2.1 hkind

end Types

variable (limits : Limits) (room : Nat)

theorem types_blueprint : (blueprint limits room).Types := by
  intro s H
  suffices h : (blueprint limits room).Ensures s fun _ es _ => ∀ e ∈ es, e.Typed from h.2
  refine Ensures.isAt_bind (fun hc => ?_) fun _ => .pure nofun
  obtain ⟨ks, hks⟩ := H.exists_kinds hc (by decide)
  obtain ⟨t, ts, hrest, hkind, -⟩ := H.exists_rest hks
  have hbump : bump.Ensures s.opened.opened fun _ es _ => es = [.token t] := by
    refine .of_runs .bump ?_
    rw [bump_cons (s := s.opened.opened) hrest]
    rfl
  have htype : (node .blueprintType bump).Ensures s.opened fun _ es _ =>
      ∃ j sp, es = [.node j .blueprintType sp [.token t]] := by
    refine .node (hbump.mono ?_)
    rintro _ _ _ _ rfl
    exact ⟨_, _, rfl⟩
  have hbody := Runs.inherited.body limits (Runs.inherited.value_innerAt limits room)
  rw [if_pos rfl]
  refine .nodeOutcome (htype.bind fun _ es u _ hes => .of_runs hbody fun e he => ?_)
  obtain ⟨j, sp, rfl⟩ := hes
  rcases List.mem_append.1 he with he | he
  · exact typed_of_mem_map_token he
  · obtain rfl := List.mem_singleton.1 he
    intro i sp' cs h
    exact ⟨j, sp, t, _, hkind, (Element.node.inj h).2.2.2.symm⟩

theorem types_itemOrSkip : (itemOrSkip limits room).Types := by
  have hvariable : (variableDef limits room).Types :=
    .view_bind fun _ => .ite (.view_bind fun _ => (Types.node (by decide)).bind_pure) .pure
  have hitem : (item limits room).Types := by
    refine .view_bind fun _ => ?_
    split
    · exact types_blueprint limits room
    · exact hvariable
    · exact .pure
  have hskip : (skipItem limits).Types :=
    .view_bind fun _ => .ite .pure (Types.node (by decide)).bind_pure
  exact .bind (Runs.inherited.item limits room) hitem fun _ => .ite .pure <|
    .bind (Runs.inherited.raiseExpected _) (.of_raises (raises_raiseExpected _)) fun _ =>
      hskip.bind_pure

theorem types_items (budget : Nat) : (items limits room budget).Types := by
  have hforce (before : Nat) : (forceProgress before).Types :=
    .view_bind fun _ => .ite
      (.bind (Runs.inherited.raiseHere _) (.of_raises (raises_raiseHere _)) fun _ =>
        (Types.node (by decide)).bind_pure) .pure
  induction budget with
  | zero => exact .view_bind fun _ => .ite .pure (.of_raises (raises_raiseHere _))
  | succ budget ih =>
    refine .view_bind fun _ => .ite .pure (.view_bind fun _ => ?_)
    exact .bind (Runs.inherited.itemOrSkip limits room) (types_itemOrSkip limits room) fun _ =>
      .bind (Runs.inherited.forceProgress _) (hforce _) fun _ => ih

/-- The modules of a file have types. -/
theorem types_contents (budget : Nat) : (contents limits room budget).Types := by
  refine .bind (Runs.inherited.items limits room budget) (types_items limits room budget) fun _ => ?_
  exact .view_bind fun _ => .ite .pure (.view_bind fun _ => (Types.node (by decide)).bind_pure)

end Rule

end Blueprint
