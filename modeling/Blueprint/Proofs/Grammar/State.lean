import Blueprint.Proofs.Grammar.Run
import Blueprint.Proofs.Token.Stream

/-!
# States in the middle of a file

`State.WF` holds in front of every text and along every run (`Run.wf`). What a rule decides on is
then a matter of `State.kinds`, the kinds of the tokens to come without trivia: the current token is
the first of them, `nth` counts along them and consuming a token drops one.
-/

namespace Blueprint

open Token

namespace State

/-- The kinds of the tokens to come, without trivia. -/
def kinds (s : State) : List TokenKind := kindsOf s.rest

/-- The state is one between the tokens of a text. -/
structure WF (s : State) : Prop where
  kind_eof : s.eof.kind = .eof
  kind_ne_eof : ∀ t ∈ s.rest, t.kind ≠ .eof
  isTrivia_pending : ∀ t ∈ s.pending, t.isTrivia = true
  isTrivia_current : ∀ t ∈ s.rest.head?, t.isTrivia = false
  index_lt : (s.rest ++ [s.eof]).Pairwise (·.index < ·.index)
  braces : BracesFollow s.kinds

theorem lookAhead_eq_getD (ts : List Token) (n : Nat) :
    lookAhead ts n = (kindsOf ts).getD n .eof := by
  induction ts generalizing n with
  | nil => rfl
  | cons t ts ih =>
    cases h : t.isTrivia with
    | true => simp only [lookAhead, h, if_true, ih, kindsOf_cons_trivia h]
    | false => cases n <;> simp [lookAhead, h, ih, kindsOf_cons h]

theorem nth_eq_getD (s : State) (n : Nat) : s.nth n = s.kinds.getD n .eof := lookAhead_eq_getD _ _

@[simp] theorem kinds_load (s : State) (ts : List Token) : (s.load ts).kinds = kindsOf ts :=
  kindsOf_dropWhile

@[simp] theorem kinds_passed (s : State) (t : Token) (ts : List Token) :
    (s.passed t ts).kinds = kindsOf ts := kindsOf_dropWhile

@[simp] theorem kinds_opened (s : State) : s.opened.kinds = s.kinds := rfl

theorem rest_passed_suffix (s : State) (t : Token) (ts : List Token) :
    (s.passed t ts).rest <:+ ts := List.dropWhile_suffix _

namespace WF

variable {s : State}

theorem opened (H : s.WF) : s.opened.WF :=
  { H with isTrivia_pending := fun _ h => nomatch h }

theorem raise (H : s.WF) (e : SyntaxError) : ({ s with raised := e :: s.raised } : State).WF :=
  { H with }

theorem isTrivia_eof (H : s.WF) : s.eof.isTrivia = false := by
  rw [Token.isTrivia, H.kind_eof]
  rfl

theorem kinds_eq_cons (H : s.WF) {t : Token} {ts : List Token} (h : s.rest = t :: ts) :
    s.kinds = t.kind :: kindsOf ts := by
  rw [kinds, h, kindsOf_cons (H.isTrivia_current t (by rw [h]; rfl))]

theorem passed (H : s.WF) {t : Token} {ts : List Token} (h : s.rest = t :: ts) :
    (s.passed t ts).WF where
  kind_eof := H.kind_eof
  kind_ne_eof u hu := H.kind_ne_eof u <| by
    rw [h]; exact .tail _ ((rest_passed_suffix s t ts).mem hu)
  isTrivia_pending _ hu := isTrivia_of_mem_pending_load (s := s) hu
  isTrivia_current u hu := by
    have h := List.head?_dropWhile_not Token.isTrivia ts
    rw [Option.mem_def, State.passed, load] at hu
    rwa [hu] at h
  index_lt := by
    have hsub : (s.passed t ts).rest ++ [s.eof] <:+ s.rest ++ [s.eof] := by
      rw [h]
      exact (List.suffix_append_inj_of_length_eq rfl).2
        ⟨(rest_passed_suffix s t ts).trans (List.suffix_cons t ts), rfl⟩
    exact H.index_lt.sublist hsub.sublist
  braces := by
    refine H.braces.suffix ?_
    rw [kinds_passed, H.kinds_eq_cons h]
    exact List.suffix_cons _ _

theorem kinds_eq_nil_iff (H : s.WF) : s.kinds = [] ↔ s.rest = [] := by
  cases h : s.rest with
  | nil => simp only [kinds, h, iff_true]; rfl
  | cons t ts => simp only [H.kinds_eq_cons h, reduceCtorEq]

theorem current_eq_headD (H : s.WF) : s.current = s.kinds.headD .eof := by
  cases h : s.rest with
  | nil => simp only [current, token, kinds, h, List.headD_nil, H.kind_eof]; rfl
  | cons t ts => rw [H.kinds_eq_cons h, current, token, h]; rfl

theorem atEof_iff (H : s.WF) : s.atEof = true ↔ s.kinds = [] := by
  rw [H.kinds_eq_nil_iff, atEof, beq_iff_eq, current, token]
  cases h : s.rest with
  | nil => simp only [List.headD_nil, H.kind_eof]
  | cons t ts =>
    have := H.kind_ne_eof t (by rw [h]; exact .head _)
    simp only [List.headD_cons, this, reduceCtorEq]

/-- The current token is a matter of what is to come. -/
theorem current_congr {t : State} (H : s.WF) (Ht : t.WF) (h : t.kinds = s.kinds) :
    t.current = s.current := by
  rw [Ht.current_eq_headD, h, ← H.current_eq_headD]

/-- The current token, when there is one. -/
theorem exists_rest (H : s.WF) {k : TokenKind} {ks : List TokenKind} (h : s.kinds = k :: ks) :
    ∃ t ts, s.rest = t :: ts ∧ t.kind = k ∧ t.isTrivia = false ∧ kindsOf ts = ks := by
  cases hr : s.rest with
  | nil => rw [H.kinds_eq_nil_iff.2 hr] at h; cases h
  | cons t ts =>
    rw [H.kinds_eq_cons hr, List.cons.injEq] at h
    exact ⟨t, ts, rfl, h.1, H.isTrivia_current t (by rw [hr]; rfl), h.2⟩

theorem exists_kinds (H : s.WF) {k : TokenKind} (h : s.current = k) (hk : k ≠ .eof) :
    ∃ ks, s.kinds = k :: ks := by
  cases hs : s.kinds with
  | nil => rw [H.current_eq_headD, hs] at h; exact absurd h.symm hk
  | cons k' ks => rw [H.current_eq_headD, hs] at h; exact ⟨ks, by rw [← h]; rfl⟩

/-- The current token and the one after it. -/
theorem exists_kinds_two (H : s.WF) {k k' : TokenKind}
    (h : (s.current == k && s.nth 1 == k') = true) (hk : k ≠ .eof) (hk' : k' ≠ .eof) :
    ∃ ks, s.kinds = k :: k' :: ks := by
  rw [Bool.and_eq_true, beq_iff_eq, beq_iff_eq, nth_eq_getD] at h
  obtain ⟨ks, hs⟩ := H.exists_kinds h.1 hk
  rw [hs] at h
  cases ks with
  | nil => exact absurd h.2.symm hk'
  | cons k'' ks => exact ⟨ks, by rw [hs, ← h.2]; rfl⟩

/-- In front of a tail, a `+` and what the tail starts with. -/
theorem exists_kinds_of_atTail (H : s.WF) (h : s.atTail = true) :
    ∃ k ∈ valueStart, ∃ ks, s.kinds = .plus :: k :: ks := by
  rw [atTail, Bool.and_eq_true, beq_iff_eq, List.contains_iff_mem] at h
  have hne : s.nth 1 ≠ .eof := fun he => by rw [he] at h; exact absurd h.2 (by decide)
  refine ⟨_, h.2, H.exists_kinds_two ?_ nofun hne⟩
  rw [h.1, beq_self_eq_true, beq_self_eq_true, Bool.and_self]

theorem current_of_kinds (H : s.WF) {k : TokenKind} {ks : List TokenKind}
    (h : s.kinds = k :: ks) : s.current = k := by
  rw [H.current_eq_headD, h]
  rfl

/-- Behind the `+` of a tail there is a value. -/
theorem current_bump_of_atTail (H : s.WF) (h : s.atTail = true) :
    (Rule.bump s).state.current ∈ valueStart := by
  obtain ⟨k, hk, ks, hkinds⟩ := H.exists_kinds_of_atTail h
  obtain ⟨t, ts, hrest, -, -, hts⟩ := H.exists_rest hkinds
  rw [Rule.bump_cons hrest, (H.passed hrest).current_of_kinds ((State.kinds_passed s t ts).trans hts)]
  exact hk

end WF

theorem unattached_ofStream (ts : TokenStream) : (ofStream ts).unattached = ts.toList := by
  rw [unattached, ofStream, pending_append_rest_load]
  rfl

theorem wf_ofStream (source : List Char) : (ofStream (.ofChars source)).WF where
  kind_eof := rfl
  kind_ne_eof t ht :=
    TokenStream.kind_ne_eof_of_mem_place _ _ _ _ ((List.dropWhile_suffix _).mem ht)
  isTrivia_pending t ht := isTrivia_of_mem_pending_load ht
  isTrivia_current t ht := by
    have h := List.head?_dropWhile_not Token.isTrivia (TokenStream.ofChars source).body
    rw [Option.mem_def, ofStream, load] at ht
    rwa [ht] at h
  index_lt := by
    have h : ((ofStream (.ofChars source)).rest ++ [(TokenStream.ofChars source).eof]).map
        Token.index <:+ List.range (TokenStream.ofChars source).toList.length := by
      rw [← TokenStream.map_index_toList]
      exact ((List.suffix_append_inj_of_length_eq rfl).2 ⟨List.dropWhile_suffix _, rfl⟩).map _
    exact List.pairwise_map.1 (List.pairwise_lt_range.sublist h.sublist)
  braces := by
    rw [ofStream, kinds_load]
    exact TokenStream.bracesFollow_place _ _ _ _

end State

namespace Run

variable {s t : State} {es : List Element}

theorem wf (H : Run s es t) (hs : s.WF) : t.WF := by
  induction H with
  | refl => exact hs
  | trans _ _ ih₁ ih₂ => exact ih₂ (ih₁ hs)
  | bump h => exact hs.passed h
  | raise _ e => exact hs.raise e
  | node _ _ ih => exact ih hs.opened

theorem rest_suffix (H : Run s es t) : t.rest <:+ s.rest := by
  induction H with
  | refl | raise => exact List.suffix_rfl
  | trans _ _ ih₁ ih₂ => exact ih₂.trans ih₁
  | @bump s t ts h => rw [h]; exact (State.rest_passed_suffix s t ts).trans (List.suffix_cons _ _)
  | node _ _ ih => exact ih

theorem kinds_suffix (H : Run s es t) : t.kinds <:+ s.kinds :=
  (H.rest_suffix.filter _).map _

/-- A run that stays in its place leaves the tokens to come as they are. -/
theorem rest_eq_of_position (H : Run s es t) (hs : s.WF) (h : t.position = s.position) :
    t.rest = s.rest := by
  cases hrest : s.rest with
  | nil => exact List.suffix_nil.1 (hrest ▸ H.rest_suffix)
  | cons u us =>
    have hsuffix := H.rest_suffix
    rw [hrest] at hsuffix
    refine (List.suffix_cons_iff.1 hsuffix).resolve_right fun hus => ?_
    have hmem : t.token ∈ us ++ [s.eof] := by
      rw [State.token, H.eof_eq]
      cases ht : t.rest with
      | nil => exact List.mem_append.2 (.inr (.head _))
      | cons v vs =>
        rw [ht] at hus
        exact List.mem_append.2 (.inl (hus.mem (.head _)))
    have hlt := hs.index_lt
    rw [hrest, List.cons_append, List.pairwise_cons] at hlt
    have hu : s.position = u.index := by rw [State.position, State.token, hrest]; rfl
    rw [hu] at h
    exact absurd h.symm (Nat.ne_of_lt (hlt.1 _ hmem))

theorem raised_suffix (H : Run s es t) : s.raised <:+ t.raised := by
  induction H with
  | refl | bump => exact List.suffix_rfl
  | trans _ _ ih₁ ih₂ => exact ih₁.trans ih₂
  | raise _ e => exact List.suffix_cons _ _
  | node _ _ ih => exact ih

end Run

end Blueprint
