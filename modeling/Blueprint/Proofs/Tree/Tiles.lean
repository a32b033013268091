import Blueprint.Proofs.Tree.Cursors

/-!
# Elements side by side

`Tiles p es q`: the elements cover the text from `p` to `q`, each where the one before it stops, and
each node in the same way by its children. The range of a node is then the range of its children,
with the line and the column of the first of them.
-/

namespace Blueprint

/-- The range from one place to another. -/
def Span.between (p q : Position) : Span := ⟨p.offset, q.offset, p.line, p.column⟩

theorem Span.ofText_eq_between (p : Position) (cs : List Char) :
    Span.ofText p cs = Span.between p (p.after cs) := by
  rw [ofText, between, Position.offset_after]

namespace Element

/-- The elements stand side by side from one place to another, and the children of nodes likewise. -/
inductive Tiles : Position → List Element → Position → Prop
  | nil (p : Position) : Tiles p [] p
  | token {p q : Position} {t : Token} {es : List Element} : t.span = Span.ofText p t.chars →
    Tiles (p.after t.chars) es q → Tiles p (.token t :: es) q
  | node {p q r : Position} {i : Nat} {k : NodeKind} {cs es : List Element} :
    Tiles p cs q → Tiles q es r → Tiles p (.node i k (Span.between p q) cs :: es) r

namespace Tiles

variable {p q r : Position} {es fs : List Element} {ts us : List Token}

theorem append (H : Tiles p es q) (H' : Tiles q fs r) : Tiles p (es ++ fs) r := by
  induction H with
  | nil => exact H'
  | token ht _ ih => exact .token ht (ih H')
  | node hc _ _ ih => exact .node hc (ih H')

theorem exists_of_append (H : Tiles p (es ++ fs) r) : ∃ q, Tiles p es q ∧ Tiles q fs r := by
  induction es generalizing p with
  | nil => exact ⟨p, .nil p, H⟩
  | cons e es ih =>
    cases H with
    | token ht H =>
      obtain ⟨q, h, h'⟩ := ih H
      exact ⟨q, .token ht h, h'⟩
    | node hc H =>
      obtain ⟨q, h, h'⟩ := ih H
      exact ⟨q, .node hc h, h'⟩

theorem le (H : Tiles p es q) : p.offset ≤ q.offset := by
  induction H with
  | nil => exact Nat.le_refl _
  | token _ _ ih =>
    rw [Position.offset_after] at ih
    exact Nat.le_of_add_right_le ih
  | node _ _ ihc ih => exact Nat.le_trans ihc ih

/-- The first element starts where the tiling starts. -/
theorem span_head (H : Tiles p es r) {e : Element} (he : e ∈ es.head?) :
    ∃ q, e.span = Span.between p q ∧ q.offset ≤ r.offset := by
  cases H with
  | nil => cases he
  | token ht H =>
    cases he
    exact ⟨_, ht.trans (Span.ofText_eq_between _ _), H.le⟩
  | @node _ q _ _ _ _ _ _ H =>
    cases he
    exact ⟨q, rfl, H.le⟩

/-- The last element stops where the tiling stops. -/
theorem span_getLast (H : Tiles p es r) {e : Element} (he : e ∈ es.getLast?) :
    ∃ q, e.span = Span.between q r ∧ p.offset ≤ q.offset := by
  induction H with
  | nil => cases he
  | @token p r t es ht H ih =>
    cases es with
    | nil =>
      cases H
      cases he
      exact ⟨p, ht.trans (Span.ofText_eq_between _ _), Nat.le_refl _⟩
    | cons e' es =>
      obtain ⟨q, hq, hle⟩ := ih he
      rw [Position.offset_after] at hle
      exact ⟨q, hq, Nat.le_of_add_right_le hle⟩
  | @node p m r i k cs es hc H _ ih =>
    cases es with
    | nil =>
      cases H
      cases he
      exact ⟨p, rfl, Nat.le_refl _⟩
    | cons e' es =>
      obtain ⟨q, hq, hle⟩ := ih he
      exact ⟨q, hq, Nat.le_trans hc.le hle⟩

/-- What side by side elements cover is what they cover together. -/
theorem spanOver_eq (H : Tiles p es q) (hne : es ≠ []) : spanOver es = some (Span.between p q) := by
  have ha := List.head?_eq_some_head hne
  have hb := List.getLast?_eq_some_getLast hne
  obtain ⟨q', ha', hle⟩ := H.span_head ha
  obtain ⟨p', hb', hle'⟩ := H.span_getLast hb
  rw [spanOver, ha, hb]
  simp only [ha', hb', Span.merge, Span.between, Nat.min_eq_left hle', Nat.max_eq_right hle,
    if_neg (Nat.not_lt.2 hle')]

/-- Each element stops between the start and the end. -/
theorem stop_between (H : Tiles p es q) :
    ∀ e ∈ es, p.offset ≤ e.span.stop ∧ e.span.stop ≤ q.offset := by
  induction H with
  | nil => nofun
  | @token p q t es ht H ih =>
    have hstop : t.span.stop = (p.after t.chars).offset := by
      rw [ht, Span.ofText_eq_between]
      rfl
    have hle : p.offset ≤ (p.after t.chars).offset := by
      rw [Position.offset_after]
      exact Nat.le_add_right _ _
    intro e he
    rcases List.mem_cons.1 he with rfl | he
    · rw [Element.span, hstop]
      exact ⟨hle, H.le⟩
    · exact ⟨Nat.le_trans hle (ih e he).1, (ih e he).2⟩
  | node Hc H _ ih =>
    intro e he
    rcases List.mem_cons.1 he with rfl | he
    · exact ⟨Hc.le, H.le⟩
    · exact ⟨Nat.le_trans Hc.le (ih e he).1, (ih e he).2⟩

/-- Elements that stand side by side end one after the other. -/
theorem pairwise_stop (H : Tiles p es q) : es.Pairwise (·.span.stop ≤ ·.span.stop) := by
  induction H with
  | nil => exact .nil
  | token ht H ih =>
    refine .cons (fun e he => ?_) ih
    rw [Element.span, ht, Span.ofText_eq_between]
    exact (H.stop_between e he).1
  | node _ H _ ih => exact .cons (fun e he => (H.stop_between e he).1) ih

/-- No element starts before the start. -/
theorem start_ge (H : Tiles p es q) : ∀ e ∈ es, p.offset ≤ e.span.start := by
  induction H with
  | nil => nofun
  | token ht H ih =>
    refine List.forall_mem_cons.2 ⟨Nat.le_of_eq (congrArg Span.start ht).symm, fun e he => ?_⟩
    refine Nat.le_trans ?_ (ih e he)
    rw [Position.offset_after]
    exact Nat.le_add_right _ _
  | node Hc _ _ ih =>
    exact List.forall_mem_cons.2 ⟨Nat.le_refl _, fun e he => Nat.le_trans Hc.le (ih e he)⟩

/-- Elements that stand side by side do not overlap. -/
theorem pairwise_disjoint (H : Tiles p es q) : es.Pairwise (·.span.stop ≤ ·.span.start) := by
  induction H with
  | nil => exact .nil
  | token ht H ih =>
    refine .cons (fun e he => ?_) ih
    rw [Element.span, ht, Span.ofText_eq_between]
    exact H.start_ge e he
  | node _ H _ ih => exact .cons (fun e he => H.start_ge e he) ih

/-! ### Tokens side by side -/

/-- Tokens that are not empty start in front of the end. -/
theorem start_lt (H : Tiles p (ts.map .token) q) (hne : ∀ t ∈ ts, t.chars ≠ []) :
    ∀ t ∈ ts, t.span.start < q.offset := by
  induction ts generalizing p with
  | nil => exact fun _ h => nomatch h
  | cons u us ih =>
    cases H with
    | token hu H =>
      intro t ht
      rcases List.mem_cons.1 ht with rfl | ht
      · have hlen : 0 < Text.byteLength t.chars := Nat.lt_of_lt_of_le
          (List.length_pos_iff.2 (hne t (.head _))) (Text.length_le_byteLength _)
        have hle := H.le
        rw [Position.offset_after] at hle
        have hstart : t.span.start = p.offset := congrArg Span.start hu
        omega
      · exact ih H (fun t h => hne t (.tail _ h)) t ht

/-- No token starts before the start. -/
theorem le_start (H : Tiles p (ts.map .token) q) : ∀ t ∈ ts, p.offset ≤ t.span.start :=
  fun _ ht => H.start_ge _ (List.mem_map_of_mem ht)

/-- Tokens that are not empty start one after the other. -/
theorem pairwise_start (H : Tiles p (ts.map .token) q) (hne : ∀ t ∈ ts, t.chars ≠ []) :
    ts.Pairwise (·.span.start < ·.span.start) := by
  induction ts generalizing p with
  | nil => exact .nil
  | cons u us ih =>
    cases H with
    | token hu H =>
      refine .cons (fun t ht => ?_) (ih H fun t ht => hne t (.tail _ ht))
      have hlen : 0 < Text.byteLength u.chars := Nat.lt_of_lt_of_le
        (List.length_pos_iff.2 (hne u (.head _))) (Text.length_le_byteLength _)
      have hle := H.le_start t ht
      have hstart : u.span.start = p.offset := congrArg Span.start hu
      rw [Position.offset_after] at hle
      omega

end Tiles

end Element

end Blueprint
