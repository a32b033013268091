import Blueprint.Proofs.Grammar.Course

/-!
# How deep a tree reaches

However long or broken a text is, its tree is as deep as the depth limit allows and no deeper
(`parse_bounded`). Objects, arrays and references in the tail of others are counted against the
limit. Between two of them a path has at most six nodes, and after the last at most eight
(`NodeKind.length_le`).
-/

namespace Blueprint

open Element

namespace NodeKind

/-- How many nodes a path can have below the file, more than six for each of its levels, when it
ends in a node of the kind; a value is taken to be no tail of a reference. -/
def spare : NodeKind → Nat
  | .file => 0
  | .blueprint | .variable | .object => 1
  | .blueprintType | .members | .array => 2
  | .pair | .elements => 3
  | .fieldName | .value | .arrayElement => 4
  | .variableRefExpr => 5
  | .stringExpr | .arrayExpr => 7
  | .error => 8

/-- How many nodes the path can have below the file, more than six for each of its levels. -/
def slack : List NodeKind → Nat
  | [] => 0
  | .value :: .variableRefExpr :: _ => 6
  | kind :: _ => kind.spare

variable {kind parent : NodeKind} {above path : List NodeKind}

theorem slack_of_ne (h : kind ≠ .value) : slack (kind :: above) = kind.spare := by
  cases kind with
  | value => exact absurd rfl h
  | _ => rfl

theorem slack_le (path : List NodeKind) : slack path ≤ 8 := by
  unfold slack
  split
  · exact Nat.zero_le _
  · decide
  · next kind _ _ => cases kind <;> decide

/-- A node uses up one more than its parent, unless it begins a level. -/
theorem slack_parent_lt (h : .node kind ∈ parent.form.atoms) :
    slack (parent :: above) + 1 ≤
      slack (kind :: parent :: above) + 6 * if kind.opensLevel (parent :: above) then 1 else 0 := by
  by_cases hvalue : kind = .value
  · have hparent : ∀ parent : NodeKind, .node .value ∈ parent.form.atoms →
        parent ∈ [NodeKind.variable, .pair, .variableRefExpr] := by
      intro parent
      cases parent <;> decide
    subst hvalue
    have hmem := hparent parent h
    simp only [List.mem_cons, List.not_mem_nil, or_false] at hmem
    rcases hmem with rfl | rfl | rfl <;> simp [slack, spare, opensLevel]
  by_cases href : kind = .variableRefExpr
  · have hparent : ∀ parent : NodeKind, .node .variableRefExpr ∈ parent.form.atoms →
        parent = .value := by
      intro parent
      cases parent <;> decide
    subst href
    obtain rfl := hparent parent h
    rcases above with _ | ⟨grandparent, above⟩
    · decide
    · cases grandparent <;> simp [slack, spare, opensLevel]
  · -- the parent of any other node is a value at the most, and then perhaps a tail
    have htable : ∀ parent ∈ all, ∀ kind ∈ all, .node kind ∈ parent.form.atoms → kind ≠ .value →
        kind ≠ .variableRefExpr → (if parent = .value then 6 else parent.spare) + 1 ≤
          kind.spare + 6 * if kind.opensLevel [] then 1 else 0 := by decide
    have hlevel : kind.opensLevel (parent :: above) = kind.opensLevel [] := by
      cases kind with
      | variableRefExpr => exact absurd rfl href
      | _ => rfl
    have hparent : slack (parent :: above) ≤ if parent = .value then 6 else parent.spare := by
      split
      · next hp =>
        subst hp
        rcases above with _ | ⟨grandparent, above⟩
        · decide
        · cases grandparent <;> simp [slack, spare]
      · next hp => exact Nat.le_of_eq (slack_of_ne hp)
    rw [slack_of_ne hvalue, hlevel]
    have := htable parent (mem_all _) kind (mem_all _) h hvalue href
    omega

/-- A path is at most six nodes long for each level, and what it has to spare. -/
theorem length_le (h : path.IsChain fun kind parent => .node kind ∈ parent.form.atoms) :
    path.length ≤ 6 * levels path + slack path + 1 := by
  induction path with
  | nil => exact Nat.zero_le _
  | cons kind above ih =>
    cases above with
    | nil => simp
    | cons parent above =>
      have hparent := ih h.tail
      have hstep := @slack_parent_lt kind parent above (List.isChain_cons_cons.1 h).1
      rw [List.length_cons, levels]
      omega

end NodeKind

/-- The nodes that a course puts down stand on paths within the depth limit. -/
theorem Course.everywhere {depth : Nat} {above : List NodeKind} {s t : State} {es : List Element}
    (H : Course depth above s es t) :
    Everywhere (fun kind above _ => NodeKind.Path depth (kind :: above)) above es := by
  induction H with
  | refl | raise => exact .nil
  | trans _ _ ih₁ ih₂ => exact ih₁.append ih₂
  | bump => exact (Everywhere.map_token _).append (.token .nil)
  | blame _ _ _ _ ih => exact ih
  | node hpath _ ih => exact (Everywhere.map_token _).append (.node hpath ih .nil)

/-- No path from the root has more levels than the limit, and none is much longer than that. -/
structure Tree.Bounded (depth : Nat) (tree : Tree) : Prop where
  levels_le : ∀ c ∈ tree.cursors, NodeKind.levels (c.kind :: c.above.map Node.kind) ≤ depth
  length_le : ∀ c ∈ tree.cursors, c.above.length ≤ 6 * depth + 8

/-- The depth limit bounds the tree of every text. -/
theorem parse_bounded (source : String) (limits : Limits) :
    (parse source limits).tree.Bounded limits.maxDepth := by
  have hcourse := (Rule.follows_contents limits (State.wf_start source)).2
  have hbelow : Everywhere (fun kind above _ => NodeKind.Path limits.maxDepth (kind :: above)) [.file]
      (Rule.fileBody limits limits.maxDepth (State.start source)).emitted := by
    rw [Rule.fileBody_apply]
    exact hcourse.everywhere.append ((Everywhere.map_token _).append (.token .nil))
  have hall : Everywhere (fun kind above _ => NodeKind.Path limits.maxDepth (kind :: above))
      (([] : List Node).map Node.kind) [(parse source limits).tree.root.toElement] :=
    .node Rule.path_file hbelow .nil
  have hpath : ∀ c ∈ (parse source limits).tree.cursors,
      NodeKind.Path limits.maxDepth (c.kind :: c.above.map Node.kind) :=
    fun c hc => hall.of_mem_ofElements (List.mem_append.2 (.inl hc))
  refine ⟨fun c hc => (hpath c hc).levels_le, fun c hc => ?_⟩
  have hlevels := (hpath c hc).levels_le
  have hlength := NodeKind.length_le (hpath c hc).chain
  have hslack := NodeKind.slack_le (c.kind :: c.above.map Node.kind)
  rw [List.length_cons, List.length_map] at hlength
  omega

end Blueprint
