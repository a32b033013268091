import Blueprint.Proofs.Grammar.Reads.File

/-!
# What is accepted

A text has no errors when the grammar derives its tokens within the depth limit, and only then
(`parse_errors_eq_nil_iff`). One direction is `Rule.fileBody_fits`, the other `Rule.fileBody_reads`.
-/

namespace Blueprint

/-- Dropping errors at a place that has one never drops them all. -/
theorem SyntaxError.recorded_eq_nil_iff {es : List SyntaxError} : recorded es = [] ↔ es = [] := by
  cases es with
  | nil => exact iff_of_true rfl rfl
  | cons e es =>
    refine iff_of_false (fun h => ?_) nofun
    simp only [recorded] at h
    split at h
    · next hany =>
      rw [h] at hany
      cases hany
    · cases h

theorem State.errors_eq_nil_iff (s : State) : s.errors = [] ↔ s.raised = [] := by
  rw [errors, List.reverse_eq_nil_iff, SyntaxError.recorded_eq_nil_iff]

/-- A text is free of errors just when the grammar derives the kinds of its tokens within the depth
limit. -/
theorem parse_errors_eq_nil_iff (source : String) (limits : Limits)
    (h : (tokenize source).length ≤ limits.maxIterations) :
    (parse source limits).errors = [] ↔
      Derives limits.maxDepth [] [.node .file]
        (Token.kindsOf ((tokenize source).takeWhile (·.kind ≠ .eof))) := by
  rw [tokenize, TokenStream.takeWhile_toList, ← State.kinds_start]
  refine (State.errors_eq_nil_iff _).trans ⟨?_, ?_⟩
  · exact (Rule.fileBody_fits (ready_start h)).2.2
  · exact Rule.fileBody_reads (ready_start h)

/-- An array in front of which there is no level left. -/
theorem parse_errors_eq_nil_iff_array :
    (tokenize "a = [1]").length ≤ 10 ∧
      ((parse "a = [1]" ⟨0, 10⟩).errors = [] ↔ Derives 0 [] [.node .file]
        (Token.kindsOf ((tokenize "a = [1]").takeWhile (·.kind ≠ .eof)))) :=
  have h : (tokenize "a = [1]").length ≤ 10 := by decide +kernel
  ⟨h, parse_errors_eq_nil_iff "a = [1]" ⟨0, 10⟩ h⟩

end Blueprint
