import Blueprint.Proofs.Grammar.Truncates
import Blueprint.Proofs.Tree.Extent

/-!
# Exact ranges

The range of every node that the grammar builds is the range of the tokens below it, and only the
root has trivia in front (`parse_exact`). A node is started in front of the current token, with the
trivia before it outside, and closed where the state stands; `Run.tiles` says that the two places
are those of its children.
-/

namespace Blueprint

open Cursor Element

namespace Cursor

variable (above : List Node)

theorem ofElements_append (es fs : List Element) :
    ofElements above (es ++ fs) = ofElements above es ++ ofElements above fs := by
  induction es with
  | nil => rfl
  | cons e es ih => rw [List.cons_append, ofElements, ofElements, ih, List.append_assoc]

theorem ofElements_map_token (ts : List Token) : ofElements above (ts.map .token) = [] := by
  induction ts with
  | nil => rfl
  | cons t ts ih => exact ih

end Cursor

/-- No node that a run emits starts with trivia. -/
theorem Run.isTrivia_head {s t : State} {es : List Element} (H : Run s es t) (hs : s.WF)
    {above : List Node} {c : Cursor} (hc : c ∈ ofElements above es) :
    ∀ u ∈ c.descendantTokens.head?, u.isTrivia = false := by
  induction H generalizing above with
  | refl | raise => cases hc
  | trans h _ ih₁ ih₂ =>
    rw [ofElements_append] at hc
    rcases List.mem_append.1 hc with hc | hc
    · exact ih₁ hs hc
    · exact ih₂ (h.wf hs) hc
  | bump =>
    rw [ofElements_append, ofElements_map_token] at hc
    cases hc
  | @node s t es kind h ih =>
    rw [ofElements_append, ofElements_map_token, List.nil_append, ofElements, ofElements,
      List.append_nil] at hc
    rcases List.mem_cons.1 hc with rfl | hc
    · -- What the node holds starts with the current token.
      intro u hu
      refine hs.opened.isTrivia_head rfl u ?_
      rw [← h.leavesAll_append_unattached, Option.mem_def, List.head?_append, show
        (leavesAll es).head? = some u from hu]
      rfl
    · exact ih hs.opened hc

/-- The ranges in the tree of a text are exact, whatever the limits are. -/
theorem parse_exact (source : String) (limits : Limits) : (parse source limits).tree.Exact := by
  obtain ⟨es, q, hroot, htiles, hleaves, -⟩ := exists_root source limits
  obtain ⟨fs, t, hrun, -, hbody⟩ :=
    Rule.exists_run_fileBody limits limits.maxDepth (State.wf_start source)
  have hchildren : (parse source limits).tree.root.children =
      fs ++ t.unattached.map .token := congrArg Reply.emitted hbody
  have hes : es = (parse source limits).tree.root.children := by rw [hroot]
  subst hes
  have heof : (parse source limits).tree.root.children =
      (fs ++ (t.pending ++ t.rest).map .token) ++ [.token t.eof] := by
    rw [hchildren, State.unattached, List.map_append, List.append_assoc]
    rfl
  refine Tree.exact_of_tiles (congrArg Node.span hroot) htiles ?_ heof ?_
  · rw [hleaves]
    exact flatMap_tokenize source
  · intro c hc
    rw [hchildren, ofElements_append, ofElements_map_token, List.append_nil] at hc
    exact hrun.isTrivia_head (State.wf_start source) hc

end Blueprint
