import Blueprint.Proofs.Grammar.Course

/-!
# Errors in order

The errors of a file start one after the other, each at a place of the text (`parse_errors_inOrder`).
Along a course no error starts before one that was raised earlier, nor after the current token
(`Course.inOrder`); so those that share a start are neighbours, and the record keeps one of them.
-/

namespace Blueprint

open Element Text

/-- The range lies in the text, between characters, and says on which line and column it starts. -/
structure Span.Placed (source : String) (s : Span) : Prop where
  start_le : s.start ≤ s.stop
  stop_le : s.stop ≤ source.utf8ByteSize
  boundaries : String.Pos.Raw.IsValid source ⟨s.start⟩ ∧ String.Pos.Raw.IsValid source ⟨s.stop⟩
  place : ∃ before after, source.toList = before ++ after ∧ s.start = byteLength before ∧
    s.line = lineAfter before ∧ s.column = columnAfter before

/-- The smallest range over two places of a text is one, too. -/
theorem Span.Placed.merge {source : String} {s t : Span} (hs : s.Placed source)
    (ht : t.Placed source) : (s.merge t).Placed source := by
  refine ⟨?_, Nat.max_le.2 ⟨hs.stop_le, ht.stop_le⟩, ⟨?_, ?_⟩, ?_⟩
  · have h := hs.start_le
    simp only [Span.merge]
    omega
  · rcases Nat.le_total s.start t.start with h | h
    · simpa only [Span.merge, Nat.min_eq_left h] using hs.boundaries.1
    · simpa only [Span.merge, Nat.min_eq_right h] using ht.boundaries.1
  · rcases Nat.le_total s.stop t.stop with h | h
    · simpa only [Span.merge, Nat.max_eq_right h] using ht.boundaries.2
    · simpa only [Span.merge, Nat.max_eq_left h] using hs.boundaries.2
  · by_cases h : t.start < s.start
    · simpa only [Span.merge, if_pos h, Nat.min_eq_right (Nat.le_of_lt h)] using ht.place
    · simpa only [Span.merge, if_neg h, Nat.min_eq_left (Nat.not_lt.1 h)] using hs.place

theorem Token.placed {source : String} {t : Token} (h : t ∈ tokenize source) :
    t.span.Placed source := by
  obtain ⟨before, after, H⟩ : ∃ before after, t.StandsIn source.toList before after := by
    rcases List.mem_append.1 h with h | h
    · obtain ⟨before, after, H, -⟩ :=
        @TokenStream.standsIn_of_mem_place 0 .empty [] source.toList t h
      exact ⟨before, after, H⟩
    · cases List.mem_singleton.1 h
      exact ⟨source.toList, [], .of_span (by simp [TokenStream.ofChars]) rfl⟩
  refine ⟨?_, ?_, H.boundaries, before, t.chars ++ after, ?_, H.start, H.line, H.column⟩
  · rw [H.start, H.stop, byteLength_append]
    omega
  · rw [H.stop, ← byteLength_toList, H.source_eq, byteLength_append _ after]
    omega
  · rw [H.source_eq, List.append_assoc]

/-! ### What is raised along a course -/

namespace State

/-- Of the errors so far none starts before an earlier one, or after the current token. -/
structure InOrder (source : String) (s : State) : Prop where
  sorted : s.raised.Pairwise fun e e' => e'.span.start ≤ e.span.start
  le_current : ∀ e ∈ s.raised, e.span.start ≤ s.token.span.start
  placed : ∀ e ∈ s.raised, e.span.Placed source

theorem InOrder.raise {source : String} {s : State} (H : s.InOrder source) {e : SyntaxError}
    (hsorted : ∀ e' ∈ s.raised, e'.span.start ≤ e.span.start)
    (hcurrent : e.span.start ≤ s.token.span.start) (hplaced : e.span.Placed source) :
    ({ s with raised := e :: s.raised } : State).InOrder source := by
  refine ⟨.cons hsorted H.sorted, fun e' he' => ?_, fun e' he' => ?_⟩
  · rcases List.mem_cons.1 he' with rfl | he'
    · exact hcurrent
    · exact H.le_current e' he'
  · rcases List.mem_cons.1 he' with rfl | he'
    · exact hplaced
    · exact H.placed e' he'

namespace Stands

variable {source : String} {p : Position} {s t : State} {es : List Element}

theorem placed_of_mem (H : s.Stands (tokenize source) p) {t : Token} (ht : t ∈ s.unattached) :
    t.span.Placed source := by
  obtain ⟨us, hus, -⟩ := H.split
  apply Token.placed
  rw [hus]
  exact List.mem_append_right _ ht

theorem token_mem_unattached (s : State) : s.token ∈ s.unattached := by
  obtain ⟨us, hus⟩ := s.exists_token_cons
  rw [unattached, List.append_assoc, hus]
  exact List.mem_append_right _ (.head _)

/-- What is read inside a node that is just started does not start before its first token. -/
theorem token_start_le (H : s.Stands (tokenize source) p) (hpending : s.pending = []) {t : Token}
    (ht : t ∈ s.unattached) : s.token.span.start ≤ t.span.start := by
  obtain ⟨q, hq⟩ := H.tiles
  rw [H.start_token hpending]
  exact hq.le_start t ht

end Stands

end State

/-- A course keeps the errors in order. -/
theorem Course.inOrder {depth : Nat} {above : List NodeKind} {source : String} {s t : State}
    {es : List Element} {p : Position} (H : Course depth above s es t)
    (hs : s.Stands (tokenize source) p) (ho : s.InOrder source) : t.InOrder source := by
  induction H generalizing p with
  | refl => exact ho
  | trans H _ ih₁ ih₂ =>
    obtain ⟨q, hq, -⟩ := H.run.tiles hs
    exact ih₂ hq (ih₁ hs ho)
  | bump h =>
    have hle := hs.start_le (.bump h)
    exact ⟨ho.sorted, fun e he => Nat.le_trans (ho.le_current e he) hle, ho.placed⟩
  | raise s problem =>
    apply ho.raise (e := ⟨problem, s.token.span⟩) ho.le_current (Nat.le_refl _)
    exact hs.placed_of_mem (State.Stands.token_mem_unattached s)
  | @blame _ s t es u H hpending hraised hu ih =>
    have hmem : u ∈ s.unattached := by
      rw [← H.run.leavesAll_append_unattached]
      exact List.mem_append_left _ hu
    have hstart : (s.token.span.merge u.span).start = s.token.span.start :=
      Nat.min_eq_left (hs.token_start_le hpending hmem)
    refine (ih hs ho).raise (e := ⟨_, s.token.span.merge u.span⟩) (fun e he => ?_) ?_ ?_
    · -- nothing was raised since the course began
      rw [hstart]
      exact ho.le_current e (hraised ▸ he)
    · rw [hstart]
      exact hs.start_le H.run
    · have htoken := hs.placed_of_mem (State.Stands.token_mem_unattached s)
      exact htoken.merge (hs.placed_of_mem hmem)
  | node _ _ ih =>
    obtain ⟨q, hq, -⟩ := hs.opened
    exact ih hq ⟨ho.sorted, ho.le_current, ho.placed⟩

/-! ### What stays on record -/

namespace SyntaxError

theorem recorded_sublist (es : List SyntaxError) : (recorded es).Sublist es := by
  induction es with
  | nil => exact .slnil
  | cons e es ih =>
    rw [recorded]
    split
    · exact .cons _ ih
    · exact .cons_cons _ ih

/-- Of errors in order, those on record start one after the other. -/
theorem pairwise_recorded {es : List SyntaxError}
    (h : es.Pairwise fun e e' => e'.span.start ≤ e.span.start) :
    (recorded es).Pairwise fun e e' => e'.span.start < e.span.start := by
  induction h with
  | nil => exact .nil
  | @cons e es hle hsorted ih =>
    rw [recorded]
    split
    · exact ih
    · next hany =>
      refine .cons (fun e' he' => ?_) ih
      have hkept := recorded_sublist es
      cases hrecorded : recorded es with
      | nil =>
        rw [hrecorded] at he'
        cases he'
      | cons k ks =>
        -- the last one on record starts before `e`, and the others before it
        rw [hrecorded] at hkept he' ih hany
        have hk : k.span.start < e.span.start :=
          Nat.lt_of_le_of_ne (hle k (hkept.mem (.head _))) fun h => hany (by simp [h])
        rcases List.mem_cons.1 he' with rfl | he'
        · exact hk
        · exact Nat.lt_trans ((List.pairwise_cons.1 ih).1 e' he') hk

/-- The errors start one after the other, each at a place of the text. -/
structure InOrder (source : String) (errors : List SyntaxError) : Prop where
  increasing : errors.Pairwise (·.span.start < ·.span.start)
  placed : ∀ e ∈ errors, e.span.Placed source

end SyntaxError

/-- The errors of every text are in order, whatever the limits are. -/
theorem parse_errors_inOrder (source : String) (limits : Limits) :
    SyntaxError.InOrder source (parse source limits).errors := by
  have hcourse := (Rule.follows_contents limits (State.wf_start source)).2
  have hstart : (State.start source).InOrder source :=
    ⟨.nil, fun _ h => absurd h List.not_mem_nil, fun _ h => absurd h List.not_mem_nil⟩
  have horder := hcourse.inOrder (State.stands_start source) hstart
  constructor
  · exact List.pairwise_reverse.2 (SyntaxError.pairwise_recorded horder.sorted)
  · intro e he
    exact horder.placed e ((SyntaxError.recorded_sublist _).mem (List.mem_reverse.1 he))

end Blueprint
