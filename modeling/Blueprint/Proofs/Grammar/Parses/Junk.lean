import Blueprint.Proofs.Grammar.Isolates
import Blueprint.Proofs.Grammar.Parses.Entry
import Blueprint.Proofs.Token.Between

/-!
# Junk between items

What is between the items of a file is skipped up to the name that the next one starts with. The
skipping counts brackets, and closing ones leave the count at zero, so in loose junk it meets no name
outside brackets (`Loose.notMem_of_depth`) and is outside brackets at the end. One error is raised,
about the first token, and one error node has all tokens (`itemOrSkip_loose`).
-/

namespace Blueprint

open Element Token

namespace Loose

open Rule

variable {ks ps qs : List TokenKind} {k : TokenKind}

/-- Outside brackets a token that opens none leaves the depth at zero. -/
theorem depthAfter_zero (hk : k ∉ [TokenKind.objectStart, .arrayStart]) : depthAfter 0 k = 0 := by
  cases k with
  | objectStart | arrayStart => exact absurd (by decide) hk
  | _ => rfl

theorem foldl_depthAfter (H : Loose ks) : ks.foldl depthAfter 0 = 0 := by
  induction H with
  | nil => rfl
  | cons hk _ ih =>
    rw [List.foldl_cons, depthAfter_zero fun h => hk (List.mem_append_left _ h), ih]
  | group h Hin _ ih =>
    obtain ⟨hopen, hclose⟩ := depthAfter_closer (n := 0) h
    rw [List.foldl_cons, List.foldl_append, List.foldl_cons, hopen, Hin.foldl_depthAfter, hclose, ih]

/-- Where the depth is zero there is no name of an item. -/
theorem notMem_of_depth (H : Loose (ps ++ k :: qs)) (h : ps.foldl depthAfter 0 = 0) :
    k ∉ [TokenKind.blueprintTypeName, .variableName] := by
  generalize hks : ps ++ k :: qs = ks at H
  induction H generalizing ps with
  | nil => exact absurd hks (List.append_ne_nil_of_right_ne_nil _ nofun)
  | cons hk _ ih =>
    rcases List.append_eq_cons_iff.1 hks with ⟨rfl, hq⟩ | ⟨us, rfl, hus⟩
    · obtain ⟨rfl, -⟩ := List.cons.inj hq
      exact fun hmem => hk (List.mem_append_right [_, _] hmem)
    · rw [List.foldl_cons, depthAfter_zero fun h => hk (List.mem_append_left _ h)] at h
      exact ih h hus.symm
  | @group opening closing ks₁ ks₂ hoc Hin _ ih =>
    obtain ⟨hopen, hclose⟩ := depthAfter_closer (n := 0) hoc
    have hnames : opening ∉ [TokenKind.blueprintTypeName, .variableName] ∧
        closing ∉ [TokenKind.blueprintTypeName, .variableName] := by
      cases opening <;> cases hoc <;> decide
    rcases List.append_eq_cons_iff.1 hks with ⟨rfl, hq⟩ | ⟨us, rfl, hus⟩
    · obtain ⟨rfl, -⟩ := List.cons.inj hq
      exact hnames.1
    rw [List.foldl_cons, hopen] at h
    rcases List.append_eq_append_iff.1 hus with ⟨vs, rfl, hvs⟩ | ⟨vs, rfl, -⟩
    · rw [List.foldl_append, Hin.foldl_depthAfter] at h
      rcases List.append_eq_cons_iff.1 hvs.symm with ⟨rfl, -⟩ | ⟨ws, rfl, hws⟩
      · cases h
      · rw [List.foldl_cons, hclose] at h
        exact ih h hws.symm
    · -- inside the brackets the depth is not zero
      have hle := (Hin.depth_cases 1).1
      rw [Nat.zero_add] at h
      omega

end Loose

namespace Element

/-- The nodes of a forest are those of its sketch. -/
theorem map_filterMap_asNode? (es : List Element) :
    (es.filterMap asNode?).map (fun n => Sketch.node n.kind (sketches n.children)) =
      (sketches es).filter fun x => x matches .node .. := by
  induction es with
  | nil => rfl
  | cons e es ih =>
    cases e with
    | token t => cases h : t.isTrivia <;> simpa [sketches, sketch, h, List.filterMap_cons, asNode?]
    | node i k s cs => simpa [sketches, sketch, List.filterMap_cons, asNode?]

theorem exists_node_of_sketches {es : List Element} {k : NodeKind} {xs : List (Sketch Token)}
    (h : sketches es = [.node k xs]) :
    ∃ n : Node, es.filterMap asNode? = [n] ∧ n.kind = k ∧ sketches n.children = xs := by
  have hnodes := map_filterMap_asNode? es
  rw [h] at hnodes
  obtain ⟨n, hn, hsketch⟩ := List.map_eq_singleton_iff.1 hnodes
  obtain ⟨hk, hxs⟩ := Sketch.node.inj hsketch
  exact ⟨n, hn, hk, hxs⟩

end Element

namespace Rule

variable {S : Script} {s : State} {t : Token} {ts rest : List Token} {room : Nat}

/-- What is not the name of an item is skipped, up to such a name, and one error is raised. -/
theorem itemOrSkip_loose (H : Reading S s) (hs : significant s.rest = t :: (ts ++ rest))
    (hloose : Loose ((t :: ts).map Token.kind))
    (hrest : ∃ k ∈ (rest.map Token.kind).head?,
      k ∈ [TokenKind.blueprintTypeName, .variableName]) :
    (itemOrSkip S.limits room).Ensures s fun _ es u => significant u.rest = rest ∧
      sketches es = [.node .error ((t :: ts).map .leaf)] ∧
      ∃ e : SyntaxError, e.span = t.span ∧ u.raised = e :: s.raised := by
  have hkinds : s.kinds = t.kind :: (ts ++ rest).map Token.kind := by
    rw [State.kinds, kindsOf_eq_map_significant, hs, List.map_cons]
  have hcurrent : s.current = t.kind := H.wf.current_of_kinds hkinds
  have hname : t.kind ∉ [TokenKind.blueprintTypeName, .variableName] :=
    @Loose.notMem_of_depth [] (ts.map Token.kind) t.kind hloose rfl
  have hitem : (item S.limits room).Ensures s fun o es u => o = .noMatch ∧ es = [] ∧ u = s := by
    refine .view_bind ?_
    rw [hcurrent]
    split
    · next h => exact absurd (by rw [h]; decide) hname
    · next h => exact absurd (by rw [h]; decide) hname
    · exact .pure ⟨rfl, rfl, rfl⟩
  refine hitem.bind fun o es u hu ho => ?_
  obtain ⟨rfl, rfl, rfl⟩ := ho
  have hskip : (skipItem S.limits).Yields S (Sketch.buried (t :: ts)) rest 0 := by
    refine .skipUntil (fun s H hs => ?_) (fun us t' ws s hus H hs hzero => ?_)
      hloose.foldl_depthAfter
    · obtain ⟨k, hk, hname⟩ := hrest
      obtain ⟨ks, hks⟩ := List.head?_eq_some_iff.1 hk
      have hcurrent := H.wf.current_of_kinds ((congrArg (List.map Token.kind) hs).trans hks)
      rw [hcurrent, List.contains_iff_mem.2 hname, Bool.or_true]
    · rw [hus, List.map_append, List.map_cons] at hloose
      have hcurrent := H.wf.current_of_kinds (congrArg (List.map Token.kind) hs)
      rw [hcurrent, ← Bool.not_eq_true, List.contains_iff_mem]
      exact hloose.notMem_of_depth hzero
  have hs' : significant u.rest = Sketch.leavesAll (Sketch.buried (t :: ts)) ++ rest := by
    rw [Sketch.leavesAll_buried, hs, List.cons_append]
  exact Faults.raiseExpected rfl hskip.bind_pure u H hs'

end Rule

end Blueprint
