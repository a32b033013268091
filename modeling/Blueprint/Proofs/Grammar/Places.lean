import Blueprint.Proofs.Grammar.Fits.File
import Blueprint.Proofs.Token.Partition
import Blueprint.Proofs.Tree.Tiles

/-!
# Where a state stands

`Stands ts p s`: the state stands at `p` in a text with the tokens `ts`, which are side by side from
there on. A run takes a state from one place to another and emits elements that are side by side
between the two (`Run.tiles`).
-/

namespace Blueprint

open Element

namespace State

theorem exists_token_cons (s : State) : ∃ us, s.rest ++ [s.eof] = s.token :: us := by
  rw [token]
  cases s.rest with
  | nil => exact ⟨[], rfl⟩
  | cons u us => exact ⟨us ++ [s.eof], rfl⟩

theorem WF.isTrivia_token {s : State} (H : s.WF) : s.token.isTrivia = false := by
  rw [token]
  cases hr : s.rest with
  | nil => exact H.isTrivia_eof
  | cons u us => exact H.isTrivia_current u (by rw [hr]; rfl)

/-- The state stands at a place of a text with the tokens `ts`. -/
structure Stands (ts : List Token) (p : Position) (s : State) : Prop where
  wf : s.WF
  split : ∃ us, ts = us ++ s.unattached ∧ ∀ t ∈ us, t.span.start < p.offset
  tiles : ∃ q, Tiles p (s.unattached.map .token) q
  chars_ne_nil : ∀ t ∈ s.pending ++ s.rest, t.chars ≠ []

namespace Stands

variable {ts us vs : List Token} {p q : Position} {s t : State}

/-- Past the tokens at the front the state stands further on. -/
theorem advance (H : Stands ts p s) (hus : s.unattached = us ++ t.unattached) (heof : t.eof = s.eof)
    (ht : t.WF) : ∃ q, Stands ts q t ∧ Tiles p (us.map .token) q := by
  obtain ⟨vs, hvs, hlt⟩ := H.split
  obtain ⟨r, hr⟩ := H.tiles
  have hfront : s.pending ++ s.rest = us ++ (t.pending ++ t.rest) := by
    rw [unattached, unattached, heof, ← List.append_assoc us] at hus
    exact List.append_cancel_right hus
  have hne : ∀ u ∈ us ++ (t.pending ++ t.rest), u.chars ≠ [] := hfront ▸ H.chars_ne_nil
  rw [hus, List.map_append] at hr
  obtain ⟨q, hq, hr⟩ := hr.exists_of_append
  refine ⟨q, ⟨ht, ⟨vs ++ us, ?_, fun u hu => ?_⟩, ⟨r, hr⟩, fun u hu => ?_⟩, hq⟩
  · rw [hvs, hus, List.append_assoc]
  · rcases List.mem_append.1 hu with hu | hu
    · exact Nat.lt_of_lt_of_le (hlt u hu) hq.le
    · exact hq.start_lt (fun v hv => hne v (List.mem_append_left _ hv)) u hu
  · exact hne u (List.mem_append_right _ hu)

/-- Where a node starts: in front of the current token. -/
theorem opened (H : Stands ts p s) :
    ∃ q, Stands ts q s.opened ∧ Tiles p (s.pending.map .token) q :=
  H.advance (List.append_assoc _ _ _) rfl H.wf.opened

theorem nodeSpan_eq {es : List Element} (H : Stands ts q t) (h : Tiles p es q) :
    t.nodeSpan es = Span.between p q := by
  cases es with
  | nil =>
    cases h
    obtain ⟨r, hr⟩ := H.tiles
    cases hu : t.unattached with
    | nil => exact absurd hu (List.append_ne_nil_of_right_ne_nil _ (List.cons_ne_nil _ _))
    | cons u us =>
      rw [hu] at hr
      cases hr with
      | token hspan _ =>
        rw [nodeSpan, hu, spanOver, List.head?_nil, List.headD_cons, Option.getD_none, hspan]
        rfl
  | cons e es => rw [nodeSpan, h.spanOver_eq (List.cons_ne_nil _ _), Option.getD_some]

end Stands

end State

namespace Run

variable {ts : List Token} {p : Position} {s t : State} {es : List Element}

/-- A run emits elements that are side by side from where it starts to where it stops. -/
theorem tiles (H : Run s es t) (hs : s.Stands ts p) : ∃ q, t.Stands ts q ∧ Tiles p es q := by
  induction H generalizing p with
  | refl => exact ⟨p, hs, .nil p⟩
  | trans _ _ ih₁ ih₂ =>
    obtain ⟨q, hq, h⟩ := ih₁ hs
    obtain ⟨r, hr, h'⟩ := ih₂ hq
    exact ⟨r, hr, h.append h'⟩
  | @bump s t us h =>
    have hrun := Run.bump h
    obtain ⟨q, hq, hes⟩ := hs.advance hrun.leavesAll_append_unattached.symm rfl (hrun.wf hs.wf)
    refine ⟨q, hq, ?_⟩
    rwa [leavesAll_append, leavesAll_map_token, List.map_append] at hes
  | raise _ e =>
    exact ⟨p, { hs with wf := hs.wf.raise e }, .nil p⟩
  | node kind _ ih =>
    obtain ⟨q, hq, hpending⟩ := hs.opened
    obtain ⟨r, hr, hes⟩ := ih hq
    refine ⟨r, hr, hpending.append ?_⟩
    rw [hr.nodeSpan_eq hes]
    exact .node hes (.nil r)

end Run

namespace State.Stands

variable {ts : List Token} {p q : Position} {s t : State} {es : List Element}

/-- Inside a node that is just started, the current token is at the place of the state. -/
theorem start_token (H : Stands ts p s) (h : s.pending = []) : s.token.span.start = p.offset := by
  obtain ⟨q, hq⟩ := H.tiles
  obtain ⟨us, hus⟩ := s.exists_token_cons
  rw [State.unattached, h, List.nil_append, hus] at hq
  cases hq with
  | token hspan _ => exact congrArg Span.start hspan

theorem start_token_opened (H : Stands ts q s.opened) : s.token.span.start = q.offset :=
  H.start_token rfl

/-- A run does not go back. -/
theorem start_le (H : Stands ts p s) (hr : Run s es t) :
    s.token.span.start ≤ t.token.span.start := by
  obtain ⟨q, hq, -⟩ := H.opened
  obtain ⟨r, hr'⟩ := hq.tiles
  obtain ⟨us, hus⟩ := t.exists_token_cons
  have hmem : t.token ∈ t.rest ++ [t.eof] := hus ▸ .head _
  rw [hq.start_token_opened]
  refine hr'.le_start _ ?_
  rw [hr.eof_eq] at hmem
  exact (List.mem_append.1 hmem).elim (fun h => List.mem_append_left _ (hr.rest_suffix.mem h))
    fun h => List.mem_append_right _ h

/-- The current token is the first one from here on that is not trivia. -/
theorem find?_next (H : Stands ts p s) :
    ts.find? (fun t => !t.isTrivia && p.offset ≤ t.span.start) = some s.token := by
  obtain ⟨us, rfl, hlt⟩ := H.split
  obtain ⟨q, hq⟩ := H.tiles
  obtain ⟨vs, hvs⟩ := s.exists_token_cons
  have hmem : s.token ∈ s.unattached := by
    rw [State.unattached, List.append_assoc, hvs]
    exact List.mem_append_right _ (.head _)
  have hbefore : us.find? (fun t => !t.isTrivia && p.offset ≤ t.span.start) = none :=
    List.find?_eq_none.2 fun t ht => by simp [hlt t ht]
  have hpending : s.pending.find? (fun t => !t.isTrivia && p.offset ≤ t.span.start) = none :=
    List.find?_eq_none.2 fun t ht => by simp [H.wf.isTrivia_pending t ht]
  rw [State.unattached, List.append_assoc, hvs, List.find?_append, hbefore, Option.none_or,
    List.find?_append, hpending, Option.none_or, List.find?_cons_of_pos]
  simp [H.wf.isTrivia_token, hq.le_start _ hmem]

end State.Stands

theorem TokenStream.tiles_place (index : Nat) (p : Position) (ctx : Context) (ls : List Lexeme) :
    Tiles p ((place index p ctx ls).map .token) (p.after (ls.flatMap Lexeme.chars)) := by
  induction ls generalizing index p ctx with
  | nil => exact .nil p
  | cons l ls ih =>
    rw [List.flatMap_cons, Position.after_append]
    exact .token rfl (ih _ _ _)

/-- A text is read from its start. -/
theorem State.stands_start (source : String) :
    (State.start source).Stands (tokenize source) .first := by
  have hunattached : (State.start source).unattached = tokenize source :=
    State.unattached_ofStream (TokenStream.ofChars source.toList)
  refine ⟨State.wf_start source, ⟨[], hunattached.symm, nofun⟩,
    ⟨Position.first.after source.toList, ?_⟩, fun t ht => ?_⟩
  · have hbody := TokenStream.tiles_place 0 .first .empty (Lexeme.scan source.toList)
    rw [Lexeme.flatMap_scan] at hbody
    rw [hunattached, tokenize, TokenStream.toList, List.map_append]
    exact hbody.append (.token rfl (.nil _))
  · have hmem : t ∈ (TokenStream.ofChars source.toList).body := by
      rwa [State.start, State.ofStream, State.pending_append_rest_load] at ht
    obtain ⟨-, -, -, hne, -⟩ :=
      @TokenStream.standsIn_of_mem_place 0 .empty [] source.toList t hmem
    exact hne

end Blueprint
