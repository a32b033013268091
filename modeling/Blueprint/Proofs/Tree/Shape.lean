import Blueprint.Proofs.Grammar.Fits.File

/-!
# The shape of a tree

However broken a text is, the children of every node of its tree have the form of the node's kind
(`parse_shaped`), as long as no loop of the grammar runs out of rounds.
-/

namespace Blueprint

open Element

/-- Every node of the tree of a text is in shape. -/
theorem parse_shaped (source : String) (limits : Limits)
    (h : (tokenize source).length ≤ limits.maxIterations) :
    ∀ c ∈ (parse source limits).tree.cursors,
      Shaped limits.maxDepth c.kind (c.above.map Node.kind) (symbols c.node.children) := by
  obtain ⟨hform, hbelow, -⟩ := Rule.fileBody_fits (ready_start h)
  have hroot : Shaped limits.maxDepth .file [] (symbols (parse source limits).tree.root.children) :=
    ⟨hform, Nat.zero_le _, nofun⟩
  have hall : Everywhere (Shaped limits.maxDepth) (([] : List Node).map Node.kind)
      [(parse source limits).tree.root.toElement] := .node hroot hbelow .nil
  exact fun c hc => hall.of_mem_ofElements (List.mem_append.2 (.inl hc))

/-- An array past the depth limit, in a module that is not closed. -/
theorem parse_shaped_unclosed :
    (tokenize "m \x7b a = [").length ≤ 20 ∧ ∀ c ∈ (parse "m \x7b a = [" ⟨0, 20⟩).tree.cursors,
      Shaped 0 c.kind (c.above.map Node.kind) (symbols c.node.children) :=
  have h : (tokenize "m \x7b a = [").length ≤ 20 := by decide +kernel
  ⟨h, parse_shaped "m \x7b a = [" ⟨0, 20⟩ h⟩

end Blueprint
