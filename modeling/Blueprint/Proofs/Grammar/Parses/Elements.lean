import Blueprint.Proofs.Grammar.Parses.Entry

/-!
# Torn arrays are parsed

The contents of an array are torn when elements with commas between them are followed by junk that
does not go on with the list (`Breaks`). What is skipped reaches from there to the closing bracket
and no further, since the brackets in the junk are balanced, and one error is raised, about the first
token of the junk (`Faults.elements`).
-/

namespace Blueprint

open NodeKind Form Token Sketch

/-- Elements with commas between them, and whether another one can come next: there is none yet, or
a comma comes last. -/
inductive Listing : List TokenKind → Bool → Prop
  | nil : Listing [] true
  | last {k : TokenKind} : k ∈ elementKinds → Listing [k] false
  | cons {k : TokenKind} {ks : List TokenKind} {wanted : Bool} : k ∈ elementKinds →
    Listing ks wanted → Listing (k :: .separator :: ks) wanted

/-- A list of elements has no brackets. -/
theorem Listing.balanced {ks : List TokenKind} {wanted : Bool} (H : Listing ks wanted) :
    Balanced ks := by
  have helement : ∀ k ∈ elementKinds, k ∉ TokenKind.brackets := by decide
  induction H with
  | nil => exact .nil
  | last hk => exact .cons (helement _ hk) .nil
  | cons hk _ ih => exact .cons (helement _ hk) (.cons (by decide) ih)

/-- Behind a list of elements the run does not go on with it: `t` is its first token, and is no
element where one can come next, and no comma behind an element. The brackets of the run are
balanced. -/
structure Breaks (list run : List Token) (t : Token) : Prop where
  head : (significant run).head? = some t
  balanced : Balanced (kindsOf run)
  listing : ∃ wanted, Listing (kindsOf list) wanted ∧
    if wanted then t.kind ∉ elementKinds else t.kind ≠ .separator

namespace Balanced

/-- Balanced brackets do not start with one that closes. -/
theorem head_notMem {k : TokenKind} {ks : List TokenKind} (H : Balanced (k :: ks)) :
    k ∉ [TokenKind.arrayEnd, .objectEnd] := by
  cases H with
  | cons hk _ =>
    have hclose : ∀ k ∈ [TokenKind.arrayEnd, .objectEnd], k ∈ TokenKind.brackets := by decide
    exact mt (hclose k) hk
  | group h _ _ => cases k <;> cases h <;> decide

/-- Outside the brackets there is none that closes. -/
theorem notMem_of_depth {ps qs : List TokenKind} {k : TokenKind} (H : Balanced (ps ++ k :: qs))
    (h : ps.foldl Rule.depthAfter 0 = 0) : k ∉ [TokenKind.arrayEnd, .objectEnd] :=
  ((H.depth_cases 0).2 h).2.head_notMem

end Balanced

namespace Sketch

variable {α β : Type}

/-- Tokens that are elements with commas between them, each element in its node. -/
def listed (kind : α → TokenKind) (as : List α) : List (Sketch α) :=
  as.map fun a => if kind a = .separator then .leaf a else .node .arrayElement [.leaf a]

/-- The contents of a torn array. -/
def torn (kind : α → TokenKind) (as junk : List α) : List (Sketch α) :=
  listed kind as ++ buried junk

theorem leavesAll_listed (kind : α → TokenKind) (as : List α) : leavesAll (listed kind as) = as := by
  induction as with
  | nil => rfl
  | cons a as ih =>
    have hleaf : (if kind a = .separator then Sketch.leaf a
        else .node .arrayElement [.leaf a]).leaves = [a] := by split <;> rfl
    rw [listed, List.map_cons, leavesAll, hleaf, ← listed, ih]
    rfl

theorem leavesAll_torn (kind : α → TokenKind) (as junk : List α) :
    leavesAll (torn kind as junk) = as ++ junk := by
  rw [torn, leavesAll_append, leavesAll_listed, leavesAll_buried]

theorem mapAll_listed (f : α → β) (kind : β → TokenKind) (as : List α) :
    mapAll f (listed (kind ∘ f) as) = listed kind (as.map f) := by
  induction as with
  | nil => rfl
  | cons a as ih =>
    rw [listed, List.map_cons, mapAll, ← listed, ih, List.map_cons]
    refine congrArg (· :: listed kind (as.map f)) ?_
    by_cases h : kind (f a) = .separator
    · simp only [Function.comp, h, if_true, Sketch.map]
    · simp only [Function.comp, h, if_false, Sketch.map, mapAll]

theorem mapAll_torn (f : α → β) (kind : β → TokenKind) (as junk : List α) :
    mapAll f (torn (kind ∘ f) as junk) = torn kind (as.map f) (junk.map f) := by
  rw [torn, mapAll_append, mapAll_listed, mapAll_buried, torn]

/-- The first token that is skipped in a torn array is the first one of the junk. -/
theorem skipped?_torn (kind : α → TokenKind) (as junk : List α) (a : α) :
    skipped? (torn kind as (a :: junk)) = some a := by
  induction as with
  | nil => rfl
  | cons b as ih =>
    rw [torn, listed, List.map_cons, List.cons_append, ← listed, ← torn]
    split
    · exact ih
    · exact ih

/-- The grammar knows no error node among the elements of an array. -/
theorem symbols_torn_notMem (kind : α → TokenKind) (as junk : List α) (a : α) :
    symbols kind (torn kind as (a :: junk)) ∉ NodeKind.elements.whole.matches' := by
  intro h
  have hatoms : Symbol.node .error ∉ NodeKind.elements.whole.atoms := by decide
  refine hatoms (mem_atoms h _ ?_)
  rw [torn, symbols_append]
  exact List.mem_append_right _ (.head _)

theorem filled_torn (kind : α → TokenKind) (as junk : List α) (a : α) :
    Filled [.node .elements (torn kind as (a :: junk))] := by
  have hlisted : Filled (listed kind as) := by
    induction as with
    | nil => exact .nil
    | cons b as ih =>
      rw [listed, List.map_cons, ← listed]
      split
      · exact .leaf ih
      · exact .node nofun (.leaf .nil) ih
  refine .node ?_ (hlisted.append (.node nofun (.map_leaf (a :: junk)) .nil)) .nil
  rw [leavesAll_torn]
  exact List.append_ne_nil_of_right_ne_nil _ nofun

end Sketch

theorem Within.arrayElement {α : Type} {kind : α → TokenKind} {depth : Nat} {bad : Sketch α → Prop}
    {a : α} : Within kind depth bad [] [.node .arrayElement [.leaf a]] 0 :=
  .node (n := 0) (Nat.zero_le _) (.inl (by decide)) (.leaf .nil) .nil

namespace Rule

variable {S : Script} {as ts rest : List Token} {t b : Token} {wanted : Bool}
  (hb : b.kind = .arrayEnd) (hts : Balanced ((t :: ts).map Token.kind))
include hb hts

/-- The skipping goes on up to the closing bracket of the array. -/
theorem Yields.skipElements :
    (Rule.skipElements S.limits).Yields S (buried (t :: ts)) (b :: rest) 0 := by
  refine .skipUntil (fun s H hs => ?_) (fun us u ws s hus H hs hzero => ?_)
    (hts.foldl_depthAfter 0)
  · rw [H.wf.current_of_kinds (congrArg (List.map Token.kind) hs), hb]
    exact Bool.or_true _
  · rw [hus, List.map_append, List.map_cons] at hts
    rw [H.wf.current_of_kinds (congrArg (List.map Token.kind) hs), ← Bool.not_eq_true,
      List.contains_iff_mem]
    exact hts.notMem_of_depth hzero

/-- After the error the junk is skipped. -/
theorem Faults.recover {ks : List TokenKind} :
    (do Rule.raiseExpected ks; let _ ← Rule.skipElements S.limits; return false : Rule Bool).Faults S
      (buried (t :: ts)) (b :: rest) t :=
  .raiseExpected rfl (Yields.skipElements hb hts).bind_pure

variable (heof : t.kind ≠ .eof)
include heof

omit hb in
/-- What comes next in front of elements or of the junk is not the closing bracket. -/
theorem ahead_torn_ne (rest : List Token) (H : Listing (as.map Token.kind) wanted) :
    (ahead (torn Token.kind as (t :: ts)) rest).headD .eof ∉ [TokenKind.arrayEnd, .eof] := by
  have helement : ∀ k ∈ elementKinds, k ∉ [TokenKind.arrayEnd, .eof] := by decide
  rw [ahead, leavesAll_torn, List.append_assoc, List.map_append]
  generalize as.map Token.kind = ks at H
  cases H with
  | nil =>
    have hclose := hts.head_notMem
    simp only [List.mem_cons, List.not_mem_nil, or_false, not_or] at hclose ⊢
    exact ⟨hclose.1, heof⟩
  | last hk => exact helement _ hk
  | cons hk _ => exact helement _ hk

omit hb hts heof in
/-- An element goes well, whatever comes behind it. -/
theorem Parses.element {a : Token} (ha : a.kind ∈ elementKinds) :
    Rule.arrayElement.Parses S [] [.node .arrayElement [.leaf a]] rest (·.isMatch = true) := by
  have hword : ∀ k ∈ elementKinds, [Symbol.token k] ∈ NodeKind.arrayElement.whole.matches' := by
    decide
  exact arrayElement (.node (hword _ ha) (.leaf .nil) .nil) (Nat.zero_le _)

theorem Faults.elementsLoop {ks : List TokenKind} (H : Listing ks wanted)
    (hks : as.map Token.kind = ks)
    (hfirst : if wanted then t.kind ∉ elementKinds else t.kind ≠ .separator) {budget : Nat}
    (hbudget : as.length < budget) :
    (Rule.elementsLoop S.limits budget).Faults S (torn Token.kind as (t :: ts)) (b :: rest) t := by
  obtain ⟨budget, rfl⟩ := Nat.exists_eq_succ_of_ne_zero (Nat.ne_zero_of_lt hbudget)
  induction H generalizing as budget with
  | nil =>
    cases List.map_eq_nil_iff.1 hks
    refine .parses_bind [] _ (p := (· = .noMatch)) .nil ?_ fun o ho => ?_
    · refine .isAtAny_bind (k := t.kind) rfl ?_
      rw [if_neg (mt List.contains_iff_mem.1 hfirst)]
      exact .pure rfl
    · rw [ho]
      exact recover hb hts
  | last hk =>
    obtain ⟨a, rfl, rfl⟩ := List.map_eq_singleton_iff.1 hks
    have hcomma : a.kind ≠ .separator := fun h => absurd (h ▸ hk) (by decide)
    rw [torn, listed, List.map_singleton, if_neg hcomma]
    refine .parses_bind _ (buried (t :: ts)) .arrayElement (.element hk) fun o ho => ?_
    rw [ho]
    refine .current_bind (k := t.kind) rfl ?_
    have hclose := hts.head_notMem
    split
    · next h => exact absurd h hfirst
    · next h => exact absurd (by rw [h]; exact .head _) hclose
    · next h => exact absurd h heof
    · exact recover hb hts
  | cons hk H ih =>
    obtain ⟨a, us, rfl, rfl, hus⟩ := List.map_eq_cons_iff.1 hks
    obtain ⟨c, us, rfl, hc, rfl⟩ := List.map_eq_cons_iff.1 hus
    have hcomma : a.kind ≠ .separator := fun h => absurd (h ▸ hk) (by decide)
    rw [torn, listed, List.map_cons, List.map_cons, if_neg hcomma, if_pos hc, ← listed]
    refine .parses_bind [.node .arrayElement [.leaf a]] (.leaf c :: torn Token.kind us (t :: ts))
      .arrayElement (.element hk) fun o ho => ?_
    rw [ho]
    refine .current_bind (k := .separator) hc ?_
    refine .parses_bind [.leaf c] (torn Token.kind us (t :: ts)) (.leaf .nil) .bump fun _ _ => ?_
    have hclose := ahead_torn_ne hts heof (b :: rest) H
    generalize hnext : (ahead (torn Token.kind us (t :: ts)) (b :: rest)).headD .eof = k at hclose
    have hne : (k == TokenKind.arrayEnd) = false :=
      beq_eq_false_iff_ne.2 fun h => hclose (h ▸ .head _)
    refine .isAt_bind hnext ?_
    rw [hne, if_neg Bool.false_ne_true]
    rw [List.length_cons, List.length_cons] at hbudget
    obtain ⟨budget, rfl⟩ := Nat.exists_eq_add_of_lt (Nat.le_of_succ_le_succ hbudget)
    exact ih rfl hfirst _ (by omega)

/-- Torn contents of an array are one node, and one error is raised. -/
theorem Faults.elements (H : Listing (as.map Token.kind) wanted)
    (hfirst : if wanted then t.kind ∉ elementKinds else t.kind ≠ .separator) :
    (Rule.elements S.limits).Faults S [.node .elements (torn Token.kind as (t :: ts))] (b :: rest)
      t := by
  refine .of_length fun hlen => (node (elementsLoop hb hts heof H rfl hfirst ?_)).bind_pure
  rw [leavesAll_node, leavesAll_torn, List.append_assoc, List.length_append, List.cons_append,
    List.length_cons] at hlen
  omega

end Rule

/-- The text with one torn array can be parsed. -/
theorem Script.sound_of_breaks {S : Script} {list run : List Token} {t : Token}
    (H : Breaks list run t) (heof : t.kind ≠ .eof) (hbad : S.bad = (· = .node .elements
      (torn Token.kind (significant list) (significant run)))) : S.Sound := by
  obtain ⟨ts, hrun⟩ := List.head?_eq_some_iff.1 H.head
  obtain ⟨wanted, hlist, hfirst⟩ := H.listing
  have hts := H.balanced
  rw [kindsOf_eq_map_significant] at hlist hts
  rw [hrun] at hbad hts
  constructor
  case start =>
    intro cs hcs
    rw [hbad] at hcs
    cases hcs
  case start_elements =>
    intro cs hcs
    rw [hbad] at hcs
    cases hcs
    have hahead := Rule.ahead_torn_ne hts heof [] hlist
    rw [ahead, List.append_nil] at hahead
    cases hleaves : leavesAll (torn Token.kind (significant list) (t :: ts)) with
    | nil => rw [hleaves] at hahead; exact absurd (by decide) hahead
    | cons u us => exact ⟨u, us, rfl, by rwa [hleaves] at hahead⟩
  case balanced =>
    intro x hx
    rw [hbad] at hx
    rw [hx, leaves, leavesAll_torn, List.map_append]
    exact hlist.balanced.append hts
  case parses =>
    intro value above cs b rest hvalue hcs
    rw [hbad] at hcs
    cases hcs
  case parses_elements =>
    intro above cs b rest hcs hb
    have hcs' := hcs
    rw [hbad] at hcs'
    cases hcs'
    intro s Hs hs
    refine (Rule.Faults.elements hb hts heof hlist hfirst s Hs hs).mono fun o es u _ hu => ?_
    obtain ⟨hu, hes, e, he, hraised⟩ := hu
    rw [hes]
    have hconcerns : e.Concerns (.node .elements (torn Token.kind (significant list) (t :: ts))) := by
      intro t' ht'
      rw [skipped?_torn] at ht'
      rw [he, Option.some.inj ht']
    exact ⟨trivial, hu, [e], .bad (by decide) hcs hconcerns .nil, hraised⟩

end Blueprint
