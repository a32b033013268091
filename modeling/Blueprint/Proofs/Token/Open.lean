import Blueprint.Proofs.Token.Splice

/-!
# Open brackets

Which brackets of a list of tokens are open in front of a place (`StillOpen`). A closer closes the
innermost open bracket of its kind and all that was opened inside it, and does nothing when there is
none. The nesting that runs along with the tokens is the list of the open brackets
(`exists_places`). Where the brackets of the list are balanced, those that are open at a place are the
ones whose pairs enclose it (`Balanced.stillOpen_iff`).
-/

namespace Blueprint

namespace TokenKind

/-- The bracket that a token opens. -/
def opens? : TokenKind → Option Bracket
  | .objectStart => some .brace
  | .arrayStart => some .square
  | _ => none

/-- The bracket that a token closes. -/
def closes? : TokenKind → Option Bracket
  | .objectEnd => some .brace
  | .arrayEnd => some .square
  | _ => none

end TokenKind

/-- The bracket that the token at a place opens. -/
def opensAt (ks : List TokenKind) (i : Nat) : Option Bracket := ks[i]?.bind TokenKind.opens?

/-- The bracket that the token at a place closes. -/
def closesAt (ks : List TokenKind) (i : Nat) : Option Bracket := ks[i]?.bind TokenKind.closes?

/-- Of the places where a bracket of one kind is opened, the last one that has the property. -/
structure IsLast (ks : List TokenKind) (p : Nat → Prop) (b : Bracket) (i : Nat) : Prop where
  holds : p i
  opens : opensAt ks i = some b
  le : ∀ j, p j → opensAt ks j = some b → j ≤ i

/-- The bracket that is opened at place `i` is open in front of place `n`. It stays open until a
closer comes for it or for an open bracket around it, when no other bracket of the kind of the closer
is open inside that one. -/
def StillOpen (ks : List TokenKind) : (n i : Nat) → Prop
  | 0, _ => False
  | n + 1, i =>
    (i = n ∧ (opensAt ks n).isSome = true) ∨
      (StillOpen ks n i ∧ ∀ b, closesAt ks n = some b → ∀ j, IsLast ks (StillOpen ks n) b j → i < j)

/-- What a place is directly inside of: the innermost bracket that is open there, if there is one. -/
def Inside (ks : List TokenKind) (n : Nat) : Option Bracket → Prop
  | some b => ∃ i, StillOpen ks n i ∧ opensAt ks i = some b ∧ ∀ j, StillOpen ks n j → j ≤ i
  | none => ∀ i, ¬StillOpen ks n i

/-- The tokens at two places open and close the same bracket, with balanced ones in between. -/
def Pair (ks : List TokenKind) (i j : Nat) : Prop :=
  ∃ as opening ms closing bs, ks = as ++ opening :: (ms ++ closing :: bs) ∧
    opening.closer? = some closing ∧ Balanced ms ∧ as.length = i ∧ i + ms.length + 1 = j

variable {ks : List TokenKind} {n i j : Nat} {b : Bracket}

theorem StillOpen.lt (h : StillOpen ks n i) : i < n := by
  induction n with
  | zero => exact h.elim
  | succ n ih =>
    rcases h with ⟨rfl, -⟩ | ⟨h, -⟩
    · exact Nat.lt_succ_self i
    · exact Nat.lt_succ_of_lt (ih h)

theorem StillOpen.exists_opens (h : StillOpen ks n i) : ∃ b, opensAt ks i = some b := by
  induction n with
  | zero => exact h.elim
  | succ n ih =>
    rcases h with ⟨rfl, h⟩ | ⟨h, -⟩
    · exact Option.isSome_iff_exists.1 h
    · exact ih h

/-- A bracket that is open was open at every place in between. -/
theorem StillOpen.of_le {m : Nat} (h : StillOpen ks n i) (hi : i < m) (hm : m ≤ n) :
    StillOpen ks m i := by
  induction n with
  | zero => exact h.elim
  | succ n ih =>
    rcases Nat.eq_or_lt_of_le hm with rfl | hm
    · exact h
    · rcases h with ⟨rfl, -⟩ | ⟨h, -⟩
      · exact absurd hi (by omega)
      · exact ih h (Nat.le_of_lt_succ hm)

/-! ### The list of open brackets -/

/-- A list of the open brackets with their places, the innermost first. -/
structure Places (ks : List TokenKind) (n : Nat) (ps : List (Nat × Bracket)) : Prop where
  pairwise : ps.Pairwise fun p q => q.1 < p.1
  opens : ∀ p ∈ ps, opensAt ks p.1 = some p.2
  mem_iff : ∀ i, (∃ b, (i, b) ∈ ps) ↔ StillOpen ks n i

theorem Nesting.close_append {us vs : Nesting} (h : b ∉ us) :
    Nesting.close (us ++ b :: vs) b = vs := by
  have hdrop : (us ++ b :: vs).dropWhile (· ≠ b) = b :: vs := by
    rw [List.dropWhile_append_of_pos]
    · simp
    · intro a ha
      exact decide_eq_true fun hab => h (hab ▸ ha)
  rw [Nesting.close, if_pos (by simp), hdrop, List.tail_cons]

theorem Nesting.close_of_not_mem {us : Nesting} (h : b ∉ us) : us.close b = us := if_neg h

namespace Places

variable {ps us vs : List (Nat × Bracket)}

theorem zero (ks : List TokenKind) : Places ks 0 [] :=
  ⟨.nil, nofun, fun _ => ⟨fun ⟨_, h⟩ => (nomatch h), fun h => h.elim⟩⟩

theorem mem_of_stillOpen (H : Places ks n ps) (h : StillOpen ks n i)
    (hb : opensAt ks i = some b) : (i, b) ∈ ps := by
  obtain ⟨b', hmem⟩ := (H.mem_iff i).2 h
  obtain rfl : b' = b := Option.some.inj ((H.opens (i, b') hmem).symm.trans hb)
  exact hmem

/-- A token that is no bracket. -/
theorem skip (H : Places ks n ps) (hopens : opensAt ks n = none) (hcloses : closesAt ks n = none) :
    Places ks (n + 1) ps := by
  refine ⟨H.pairwise, H.opens, fun i => (H.mem_iff i).trans ⟨fun h => .inr ⟨h, ?_⟩, ?_⟩⟩
  · rw [hcloses]
    nofun
  · rintro (⟨-, h⟩ | ⟨h, -⟩)
    · rw [hopens] at h
      cases h
    · exact h

theorem push (H : Places ks n ps) (hopens : opensAt ks n = some b) (hcloses : closesAt ks n = none) :
    Places ks (n + 1) ((n, b) :: ps) := by
  refine ⟨List.pairwise_cons.2 ⟨fun p hp => ?_, H.pairwise⟩, fun p hp => ?_, fun i => ⟨?_, ?_⟩⟩
  · exact ((H.mem_iff p.1).1 ⟨p.2, hp⟩).lt
  · rcases List.mem_cons.1 hp with rfl | hp
    · exact hopens
    · exact H.opens p hp
  · rintro ⟨b', hmem⟩
    rcases List.mem_cons.1 hmem with h | hmem
    · exact .inl ⟨congrArg Prod.fst h, by rw [hopens]; rfl⟩
    · exact .inr ⟨(H.mem_iff i).1 ⟨b', hmem⟩, by rw [hcloses]; nofun⟩
  · rintro (⟨rfl, -⟩ | ⟨h, -⟩)
    · exact ⟨b, .head _⟩
    · obtain ⟨b', hmem⟩ := (H.mem_iff i).2 h
      exact ⟨b', .tail _ hmem⟩

/-- A closer for which no bracket is open. -/
theorem ignore (H : Places ks n ps) (hopens : opensAt ks n = none) (hcloses : closesAt ks n = some b)
    (hb : b ∉ ps.map Prod.snd) : Places ks (n + 1) ps := by
  refine ⟨H.pairwise, H.opens, fun i => (H.mem_iff i).trans ⟨fun h => .inr ⟨h, ?_⟩, ?_⟩⟩
  · intro b' hb' j hj
    rw [hcloses] at hb'
    obtain rfl := Option.some.inj hb'
    exact absurd (List.mem_map_of_mem (H.mem_of_stillOpen hj.holds hj.opens)) hb
  · rintro (⟨-, h⟩ | ⟨h, -⟩)
    · rw [hopens] at h
      cases h
    · exact h

/-- A closer closes the innermost open bracket of its kind and all that come before it in the list. -/
theorem close (H : Places ks n (us ++ (j, b) :: vs)) (hopens : opensAt ks n = none)
    (hcloses : closesAt ks n = some b) (hb : b ∉ us.map Prod.snd) : Places ks (n + 1) vs := by
  obtain ⟨-, hpairwise, hus⟩ := List.pairwise_append.1 H.pairwise
  obtain ⟨hvs, hpairwise⟩ := List.pairwise_cons.1 hpairwise
  have hlast : IsLast ks (StillOpen ks n) b j := by
    refine ⟨(H.mem_iff j).1 ⟨b, by simp⟩, H.opens (j, b) (by simp), fun i hi hopens => ?_⟩
    rcases List.mem_append.1 (H.mem_of_stillOpen hi hopens) with hmem | hmem
    · exact absurd (List.mem_map_of_mem hmem) hb
    · rcases List.mem_cons.1 hmem with h | hmem
      · exact (congrArg Prod.fst h).le
      · exact (hvs _ hmem).le
  refine ⟨hpairwise, fun p hp => H.opens p (by simp [hp]), fun i => ⟨?_, ?_⟩⟩
  · rintro ⟨b', hmem⟩
    refine .inr ⟨(H.mem_iff i).1 ⟨b', by simp [hmem]⟩, fun b'' hb'' k hk => ?_⟩
    rw [hcloses] at hb''
    obtain rfl := Option.some.inj hb''
    exact (hvs _ hmem).trans_le (hk.le j hlast.holds hlast.opens)
  · rintro (⟨-, h⟩ | ⟨h, hlt⟩)
    · rw [hopens] at h
      cases h
    · obtain ⟨b', hmem⟩ := (H.mem_iff i).2 h
      have hij := hlt b hcloses j hlast
      rcases List.mem_append.1 hmem with hmem | hmem
      · exact absurd (hus _ hmem (j, b) (.head _)) hij.not_gt
      · rcases List.mem_cons.1 hmem with h | hmem
        · exact absurd (congrArg Prod.fst h) hij.ne
        · exact ⟨b', hmem⟩

theorem exists_close (H : Places ks n ps) (hopens : opensAt ks n = none)
    (hcloses : closesAt ks n = some b) :
    ∃ qs, Places ks (n + 1) qs ∧ Nesting.close (ps.map Prod.snd) b = qs.map Prod.snd := by
  by_cases hb : b ∈ ps.map Prod.snd
  · obtain ⟨xs, ys, hmap, hxs⟩ := List.eq_append_cons_of_mem hb
    obtain ⟨us, ws, rfl, rfl, hws⟩ := List.map_eq_append_iff.1 hmap
    obtain ⟨⟨j, b'⟩, vs, rfl, rfl, rfl⟩ := List.map_eq_cons_iff.1 hws
    exact ⟨vs, H.close hopens hcloses hxs, by rw [hmap, Nesting.close_append hxs]⟩
  · exact ⟨ps, H.ignore hopens hcloses hb, Nesting.close_of_not_mem hb⟩

/-- What a place is directly inside of is at the front of the list. -/
theorem inside_iff (H : Places ks n ps) (x : Option Bracket) :
    Inside ks n x ↔ x = (ps.map Prod.snd).head? := by
  cases ps with
  | nil =>
    have hnone (i : Nat) : ¬StillOpen ks n i := fun h => by
      obtain ⟨b, hmem⟩ := (H.mem_iff i).2 h
      cases hmem
    cases x with
    | none => exact ⟨fun _ => rfl, fun _ => hnone⟩
    | some b => exact ⟨fun ⟨i, hi, _⟩ => absurd hi (hnone i), nofun⟩
  | cons p ps =>
    obtain ⟨i, b⟩ := p
    have hi : StillOpen ks n i := (H.mem_iff i).1 ⟨b, .head _⟩
    have hb : opensAt ks i = some b := H.opens (i, b) (.head _)
    have hle (j : Nat) (hj : StillOpen ks n j) : j ≤ i := by
      obtain ⟨b', hmem⟩ := (H.mem_iff j).2 hj
      rcases List.mem_cons.1 hmem with h | hmem
      · exact (congrArg Prod.fst h).le
      · exact ((List.pairwise_cons.1 H.pairwise).1 _ hmem).le
    cases x with
    | none => exact ⟨fun h => absurd hi (h i), nofun⟩
    | some b' =>
      constructor
      · rintro ⟨j, hj, hb', hlast⟩
        obtain rfl : j = i := Nat.le_antisymm (hle j hj) (hlast i hi)
        exact hb'.symm.trans hb
      · intro h
        cases h
        exact ⟨i, hi, hb, hle⟩

end Places

/-- The nesting that runs along with the tokens is the list of the open brackets. -/
theorem exists_places (ks : List TokenKind) (n : Nat) (h : n ≤ ks.length) :
    ∃ ps, Places ks n ps ∧ (ks.take n).foldl Nesting.afterKind [] = ps.map Prod.snd := by
  induction n with
  | zero => exact ⟨[], .zero ks, rfl⟩
  | succ n ih =>
    obtain ⟨ps, H, hps⟩ := ih (Nat.le_of_succ_le h)
    have hget : ks[n]? = some ks[n] := List.getElem?_eq_getElem h
    have hopens : opensAt ks n = ks[n].opens? := by rw [opensAt, hget]; rfl
    have hcloses : closesAt ks n = ks[n].closes? := by rw [closesAt, hget]; rfl
    have hfold : (ks.take (n + 1)).foldl Nesting.afterKind [] =
        Nesting.afterKind (ps.map Prod.snd) ks[n] := by
      rw [List.take_succ_eq_append_getElem h, List.foldl_append, hps]
      rfl
    rw [hfold]
    cases hk : ks[n] with
    | objectStart | arrayStart =>
      rw [hk] at hopens hcloses
      exact ⟨_, H.push hopens hcloses, rfl⟩
    | objectEnd | arrayEnd =>
      rw [hk] at hopens hcloses
      exact H.exists_close hopens hcloses
    | _ =>
      rw [hk] at hopens hcloses
      exact ⟨ps, H.skip hopens hcloses, rfl⟩

/-! ### Pairs -/

theorem opens?_of_closer? {opening closing : TokenKind} (h : opening.closer? = some closing) :
    ∃ b, opening.opens? = some b ∧ closing.closes? = some b ∧ opening.closes? = none ∧
      closing.opens? = none := by
  cases opening <;> cases h <;> exact ⟨_, rfl, rfl, rfl, rfl⟩

namespace Pair

theorem cons (h : Pair ks i j) (k : TokenKind) : Pair (k :: ks) (i + 1) (j + 1) := by
  obtain ⟨as, opening, ms, closing, bs, rfl, hclose, hms, rfl, rfl⟩ := h
  exact ⟨k :: as, opening, ms, closing, bs, rfl, hclose, hms, rfl, by omega⟩

theorem append_left (h : Pair ks i j) (us : List TokenKind) :
    Pair (us ++ ks) (us.length + i) (us.length + j) := by
  obtain ⟨as, opening, ms, closing, bs, rfl, hclose, hms, rfl, rfl⟩ := h
  refine ⟨us ++ as, opening, ms, closing, bs, by rw [List.append_assoc], hclose, hms, ?_, by omega⟩
  rw [List.length_append]

theorem append_right (h : Pair ks i j) (vs : List TokenKind) : Pair (ks ++ vs) i j := by
  obtain ⟨as, opening, ms, closing, bs, rfl, hclose, hms, rfl, rfl⟩ := h
  exact ⟨as, opening, ms, closing, bs ++ vs, by simp, hclose, hms, rfl, rfl⟩

theorem lt (h : Pair ks i j) : i < j := by
  obtain ⟨as, opening, ms, closing, bs, rfl, hclose, hms, rfl, rfl⟩ := h
  omega

/-- The two tokens of a pair. -/
theorem exists_bracket (h : Pair ks i j) :
    ∃ b, opensAt ks i = some b ∧ closesAt ks j = some b ∧ closesAt ks i = none ∧
      opensAt ks j = none := by
  obtain ⟨as, opening, ms, closing, bs, rfl, hclose, hms, rfl, rfl⟩ := h
  obtain ⟨b, hb⟩ := opens?_of_closer? hclose
  have hi : (as ++ opening :: (ms ++ closing :: bs))[as.length]? = some opening := by simp
  have hj : (as ++ opening :: (ms ++ closing :: bs))[as.length + ms.length + 1]? =
      some closing := by
    rw [List.getElem?_append_right (by omega), show as.length + ms.length + 1 - as.length =
      ms.length + 1 by omega, List.getElem?_cons_succ, List.getElem?_append_right (Nat.le_refl _),
      Nat.sub_self]
    rfl
  refine ⟨b, ?_, ?_, ?_, ?_⟩
  · rw [opensAt, hi]; exact hb.1
  · rw [closesAt, hj]; exact hb.2.1
  · rw [closesAt, hi]; exact hb.2.2.1
  · rw [opensAt, hj]; exact hb.2.2.2

end Pair

/-- In a balanced list every bracket has its partner. -/
theorem Balanced.exists_pair (H : Balanced ks) {k : TokenKind} (hget : ks[n]? = some k)
    (hk : k ∈ TokenKind.brackets) : ∃ i j, Pair ks i j ∧ (n = i ∨ n = j) := by
  induction H generalizing n with
  | nil => cases hget
  | @cons k' ks hk' _ ih =>
    cases n with
    | zero =>
      cases hget
      exact absurd hk hk'
    | succ n =>
      obtain ⟨i, j, hpair, hn⟩ := ih hget
      exact ⟨i + 1, j + 1, hpair.cons k', by omega⟩
  | @group opening closing ms bs hclose hms _ ih ih' =>
    have houter : Pair (opening :: (ms ++ closing :: bs)) 0 (ms.length + 1) :=
      ⟨[], opening, ms, closing, bs, rfl, hclose, hms, rfl, by omega⟩
    cases n with
    | zero => exact ⟨0, _, houter, .inl rfl⟩
    | succ n =>
      rw [List.getElem?_cons_succ] at hget
      rcases Nat.lt_trichotomy n ms.length with hn | rfl | hn
      · rw [List.getElem?_append_left hn] at hget
        obtain ⟨i, j, hpair, hn⟩ := ih hget
        exact ⟨i + 1, j + 1, (hpair.append_right _).cons _, by omega⟩
      · exact ⟨0, _, houter, .inr rfl⟩
      · obtain ⟨m, rfl⟩ := Nat.exists_eq_add_of_lt hn
        rw [List.getElem?_append_right (by omega),
          show ms.length + m + 1 - ms.length = m + 1 by omega, List.getElem?_cons_succ] at hget
        obtain ⟨i, j, hpair, hn⟩ := ih' hget
        have hpair := (((hpair.cons closing).append_left ms).cons opening)
        exact ⟨_, _, hpair, by omega⟩

theorem isBracket_of_opensAt (h : opensAt ks n = some b) :
    ∃ k, ks[n]? = some k ∧ k ∈ TokenKind.brackets := by
  obtain ⟨k, hk, h⟩ := Option.bind_eq_some_iff.1 h
  exact ⟨k, hk, by cases k <;> cases h <;> decide⟩

theorem isBracket_of_closesAt (h : closesAt ks n = some b) :
    ∃ k, ks[n]? = some k ∧ k ∈ TokenKind.brackets := by
  obtain ⟨k, hk, h⟩ := Option.bind_eq_some_iff.1 h
  exact ⟨k, hk, by cases k <;> cases h <;> decide⟩

namespace Pair

/-- Inside a pair every bracket has its partner there too. -/
theorem exists_pair {k : TokenKind} (h : Pair ks i j) (hi : i < n) (hj : n < j)
    (hget : ks[n]? = some k) (hk : k ∈ TokenKind.brackets) :
    ∃ i' j', Pair ks i' j' ∧ (n = i' ∨ n = j') ∧ i < i' ∧ j' < j := by
  obtain ⟨as, opening, ms, closing, bs, rfl, hclose, hms, rfl, rfl⟩ := h
  obtain ⟨m, rfl⟩ := Nat.exists_eq_add_of_lt hi
  have hm : m < ms.length := by omega
  rw [List.getElem?_append_right (by omega), show as.length + m + 1 - as.length = m + 1 by omega,
    List.getElem?_cons_succ, List.getElem?_append_left hm] at hget
  obtain ⟨i', j', hpair, hn⟩ := hms.exists_pair hget hk
  have hlt := hpair.lt
  have hj' : j' < ms.length := by
    obtain ⟨as', opening', ms', closing', bs', rfl, -, -, rfl, rfl⟩ := hpair
    simp only [List.length_append, List.length_cons]
    omega
  have hpair := ((hpair.append_right (closing :: bs)).cons opening).append_left as
  exact ⟨_, _, hpair, by omega, by omega, by omega⟩

/-- The opener of a pair is open up to its closer. -/
theorem stillOpen (h : Pair ks i j) (hi : i < n) (hj : n ≤ j) : StillOpen ks n i := by
  induction n using Nat.strong_induction_on generalizing i j with
  | _ n ih =>
    obtain ⟨b, hb, -⟩ := h.exists_bracket
    cases n with
    | zero => omega
    | succ n =>
      rcases Nat.lt_or_eq_of_le (Nat.le_of_lt_succ hi) with hi | rfl
      · refine .inr ⟨ih n (Nat.lt_succ_self n) h hi (by omega), fun b' hb' l hl => ?_⟩
        -- the partner of a closer inside the pair is open, so the closer does not reach out
        obtain ⟨k, hget, hk⟩ := isBracket_of_closesAt hb'
        obtain ⟨i', j', hpair, hn, hi', hj'⟩ := h.exists_pair hi hj hget hk
        obtain ⟨c, hc, hc', hnone, -⟩ := hpair.exists_bracket
        rcases hn with rfl | rfl
        · rw [hb'] at hnone
          cases hnone
        · rw [hb'] at hc'
          obtain rfl := Option.some.inj hc'
          exact hi'.trans_le (hl.le i' (ih n (Nat.lt_succ_self n) hpair hpair.lt (Nat.le_refl n)) hc)
      · exact .inl ⟨rfl, by rw [hb]; rfl⟩

/-- Behind its closer the opener of a pair is not open any more. -/
theorem not_stillOpen (h : Pair ks i j) (hj : j < n) : ¬StillOpen ks n i := by
  induction hlen : j - i using Nat.strong_induction_on generalizing i j n with
  | _ d ih =>
    intro hopen
    obtain ⟨b, hb, hb', -, hnone⟩ := h.exists_bracket
    have hlt := h.lt
    rcases hopen.of_le (m := j + 1) (by omega) hj with ⟨rfl, -⟩ | ⟨-, hsurvives⟩
    · exact absurd hlt (Nat.lt_irrefl i)
    · -- nothing of its kind is open inside the pair, so the closer comes for it
      have hlast : IsLast ks (StillOpen ks j) b i := by
        refine ⟨h.stillOpen hlt (Nat.le_refl j), hb, fun l hl hlb => Nat.not_lt.1 fun hil => ?_⟩
        obtain ⟨k, hget, hk⟩ := isBracket_of_opensAt hlb
        obtain ⟨i', j', hpair, hn, hi', hj'⟩ := h.exists_pair hil hl.lt hget hk
        obtain ⟨_, -, -, -, hnone'⟩ := hpair.exists_bracket
        rcases hn with rfl | rfl
        · exact ih (j' - l) (by omega) hpair hj' rfl hl
        · rw [hlb] at hnone'
          cases hnone'
      exact absurd (hsurvives b hb' i hlast) (Nat.lt_irrefl i)

end Pair

/-- In a balanced list the brackets that are open at a place are those whose pairs enclose it. -/
theorem Balanced.stillOpen_iff (H : Balanced ks) :
    StillOpen ks n i ↔ ∃ j, Pair ks i j ∧ i < n ∧ n ≤ j := by
  constructor
  · intro h
    obtain ⟨b, hb⟩ := h.exists_opens
    obtain ⟨k, hget, hk⟩ := isBracket_of_opensAt hb
    obtain ⟨i', j, hpair, hi⟩ := H.exists_pair hget hk
    obtain ⟨-, -, -, -, hnone⟩ := hpair.exists_bracket
    rcases hi with rfl | rfl
    · exact ⟨j, hpair, h.lt, Nat.not_lt.1 fun hj => hpair.not_stillOpen hj h⟩
    · rw [hb] at hnone
      cases hnone
  · rintro ⟨j, hpair, hi, hj⟩
    exact hpair.stillOpen hi hj

end Blueprint
