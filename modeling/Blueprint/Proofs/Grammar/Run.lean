import Blueprint.Proofs.Grammar.Parts

/-!
# Runs of the grammar

What a rule can do to a state. `Run s es t` is a sequence of steps from `s` to `t` that emits `es`;
a step consumes a token, raises an error or builds a node around a run of its own. Every rule of the
grammar is a run (`Rule.Runs`), whatever the limits are, so a property of states that each step
keeps holds along the whole grammar without another look at the rules.
-/

namespace Blueprint

/-- The state inside a node that is started here. -/
def State.opened (s : State) : State := { s with pending := [], nodes := s.nodes + 1 }

/-- The state after the current token `t`, when `ts` come next. -/
def State.passed (s : State) (t : Token) (ts : List Token) : State :=
  { s.load ts with previous := some t.span }

/-- The steps that lead from one state to another, with what they emit. -/
inductive Run : State → List Element → State → Prop
  | refl (s : State) : Run s [] s
  | trans {s t u : State} {es fs : List Element} : Run s es t → Run t fs u → Run s (es ++ fs) u
  | bump {s : State} {t : Token} {ts : List Token} : s.rest = t :: ts →
    Run s (s.pending.map .token ++ [.token t]) (s.passed t ts)
  | raise (s : State) (e : SyntaxError) : Run s [] { s with raised := e :: s.raised }
  | node {s t : State} {es : List Element} (kind : NodeKind) : Run s.opened es t →
    Run s (s.pending.map .token ++ [.node s.nodes kind (t.nodeSpan es) es]) t

namespace Rule

variable {α β : Type}

/-- Whatever the state, the rule is a run from it. -/
def Runs (r : Rule α) : Prop := ∀ s, Run s (r s).emitted (r s).state

theorem bump_nil {s : State} (h : s.rest = []) : bump s = ⟨(), [], s⟩ := by
  simp only [bump, h]

theorem bump_cons {s : State} {t : Token} {ts : List Token} (h : s.rest = t :: ts) :
    bump s = ⟨(), s.pending.map .token ++ [.token t], s.passed t ts⟩ := by
  simp only [bump, h, State.passed]

theorem node_apply (kind : NodeKind) (body : Rule α) (s : State) :
    node kind body s =
      ⟨(s.nodes, (body s.opened).value),
        s.pending.map .token ++
          [.node s.nodes kind ((body s.opened).state.nodeSpan (body s.opened).emitted)
            (body s.opened).emitted],
        (body s.opened).state⟩ := by
  simp only [node, flush, freshId, enclose, State.opened, bind_apply, pure_apply, List.nil_append,
    List.append_nil]

/-! ### Every rule is a run -/

namespace Runs

theorem pure {a : α} : (Pure.pure a : Rule α).Runs := fun s => .refl s

theorem view {f : State → α} : (Rule.view f).Runs := fun s => .refl s

theorem bind {r : Rule α} {f : α → Rule β} (hr : r.Runs) (hf : ∀ a, (f a).Runs) :
    (r >>= f).Runs := fun s => (hr s).trans (hf _ _)

theorem bump : Rule.bump.Runs := by
  intro s
  cases h : s.rest with
  | nil => rw [bump_nil h]; exact .refl s
  | cons t ts => rw [bump_cons h]; exact .bump h

theorem raise {e : SyntaxError} : (Rule.raise e).Runs := fun s => .raise s e

theorem node {kind : NodeKind} {body : Rule α} (h : body.Runs) : (Rule.node kind body).Runs := by
  intro s
  rw [node_apply]
  exact .node kind (h s.opened)

/-- Every rule of the grammar is a run, as its parts are. -/
theorem inherited : Inherited Runs where
  pure _ := pure
  view _ := view
  bump := bump
  bind := bind
  node _ h := h.node
  raise _ := raise
  pair h := node (bump.node.bind h)

end Runs

end Rule

/-- The rules of the next level are runs. -/
def Inner.Runs (inner : Option Inner) : Prop :=
  ∀ rules ∈ inner, rules.value.Runs ∧ ∀ budget, (rules.links budget).Runs

namespace Rule

variable (limits : Limits) (room : Nat)

/-- The items of a file, and what they leave over. -/
def contents (budget : Nat) : Rule Unit := do
  items limits room budget
  leftover

/-- The contents of a file are what a rule that runs leaves, and the end of the file. -/
theorem fileBody_apply (s : State) :
    fileBody limits room s =
      let r := contents limits room limits.maxIterations s
      ⟨(), r.emitted ++ (r.state.pending.map .token ++ [.token r.state.eof]),
        { r.state with pending := [] }⟩ := by
  simp only [fileBody, contents, bind_apply, List.append_assoc]
  rfl

end Rule

/-! ### What every run keeps -/

namespace Run

open Element

variable {s t : State} {es : List Element}

theorem eof_eq (H : Run s es t) : t.eof = s.eof := by
  induction H with
  | refl | bump | raise => rfl
  | trans _ _ ih₁ ih₂ => rw [ih₂, ih₁]
  | node _ _ ih => exact ih

/-- The emitted tokens are the ones that were taken, in order. -/
theorem leavesAll_append_unattached (H : Run s es t) :
    leavesAll es ++ t.unattached = s.unattached := by
  induction H with
  | refl | raise => rfl
  | trans _ _ ih₁ ih₂ => rw [leavesAll_append, List.append_assoc, ih₂, ih₁]
  | @bump s t ts h =>
    have hload : (s.passed t ts).pending ++ (s.passed t ts).rest = ts :=
      State.pending_append_rest_load s ts
    have heof : (s.passed t ts).eof = s.eof := rfl
    simp only [State.unattached, hload, heof, h, leavesAll_append, leavesAll_map_token, leavesAll,
      leaves, List.append_assoc, List.cons_append, List.nil_append]
  | @node s t es kind _ ih =>
    simp only [leavesAll_append, leavesAll_map_token, leavesAll, leaves, List.append_nil,
      List.append_assoc, ih]
    simp only [State.unattached, State.opened, List.nil_append, List.append_assoc]

/-- The emitted nodes have the numbers that follow those of the nodes before, in order. -/
theorem range_nodes_append_idsAll (H : Run s es t) :
    List.range s.nodes ++ idsAll es = List.range t.nodes := by
  induction H with
  | refl | raise => exact List.append_nil _
  | trans _ _ ih₁ ih₂ => rw [idsAll_append, ← List.append_assoc, ih₁, ih₂]
  | bump => simp only [idsAll_append, idsAll_map_token, idsAll, ids, List.append_nil]; rfl
  | @node s t es kind _ ih =>
    rw [idsAll_append, idsAll_map_token, List.nil_append, idsAll, ids, idsAll, List.append_nil,
      ← ih, State.opened, List.range_succ, List.append_assoc, List.singleton_append]

end Run

end Blueprint
