import Mathlib.Data.Nat.Count
import Blueprint.Proofs.Token.Partition
import Blueprint.Text.Line

/-!
# Lines and columns of offsets

The lookup of an offset in the table of lines finds the last line that starts at or before it
(`lineAt_isLast`), and in that line counts the boundaries between characters that were passed
(`columnOf_eq_count`). At an offset between two characters it agrees with the line and column that a
position has once it ran over the characters in front (`lineAt_lineTable`).
-/

namespace Blueprint.Text

variable {cs l : List Char} {ls : List (List Char)}

theorem lines_ne_nil (cs : List Char) : lines cs ≠ [] := by
  fun_cases lines cs <;> simp_all

theorem lines_cons_of_ne {c : Char} (hc : c ≠ '\n') (h : lines cs = l :: ls) :
    lines (c :: cs) = (c :: l) :: ls := by
  rw [lines, h]
  exact hc

/-- What stands in front of a line and ends no line becomes a part of it. -/
theorem lines_append {before : List Char} (hbefore : '\n' ∉ before) (h : lines cs = l :: ls) :
    lines (before ++ cs) = (before ++ l) :: ls := by
  induction before with
  | nil => exact h
  | cons c before ih =>
    rw [List.mem_cons, not_or] at hbefore
    exact lines_cons_of_ne (Ne.symm hbefore.1) (ih hbefore.2)

/-- Only the last line can be empty. -/
theorem eq_nil_of_lines (h : lines cs = [] :: ls) : ls = [] := by
  cases cs with
  | nil => exact (List.cons.inj h).2.symm
  | cons c cs =>
    obtain ⟨l, ls', hcs⟩ := List.exists_cons_of_ne_nil (lines_ne_nil cs)
    by_cases hc : c = '\n'
    · subst hc
      cases h
    · rw [lines_cons_of_ne hc hcs] at h
      cases h

theorem byteLength_pos {cs : List Char} (h : cs ≠ []) : 0 < byteLength cs := by
  cases cs with
  | nil => exact absurd rfl h
  | cons c cs => exact Nat.lt_of_lt_of_le c.utf8Size_pos (Nat.le_add_right _ _)

theorem countWithin_zero (cs : List Char) : countWithin 0 cs = 0 := by
  cases cs with
  | nil => rfl
  | cons c cs => exact if_neg (Nat.not_le.2 c.utf8Size_pos)

/-- All characters of a front end within its bytes, and no other does. -/
theorem countWithin_append (front back : List Char) :
    countWithin (byteLength front) (front ++ back) = front.length := by
  induction front with
  | nil => exact countWithin_zero back
  | cons c front ih =>
    rw [List.cons_append, countWithin, byteLength_cons, if_pos (Nat.le_add_right _ _),
      Nat.add_sub_cancel_left, ih, List.length_cons]

/-- An offset in front of the next line is in the first one. -/
theorem lineAt_numbered_of_lt {number start offset : Nat}
    (h : ls ≠ [] → offset < start + byteLength l) :
    lineAt offset (numbered number start (l :: ls)) = ⟨number, start, l⟩ := by
  cases ls with
  | nil => rfl
  | cons m ls => exact if_pos (h (List.cons_ne_nil _ _))

theorem lineAt_numbered_of_le {number start offset : Nat} (hls : ls ≠ [])
    (h : start + byteLength l ≤ offset) :
    lineAt offset (numbered number start (l :: ls)) =
      lineAt offset (numbered (number + 1) (start + byteLength l) ls) := by
  cases ls with
  | nil => exact absurd rfl hls
  | cons m ls => exact if_neg (Nat.not_lt.2 h)

/-- The lookup from inside a line: `before` is the part of the line that was passed. -/
theorem lineAt_numbered {before : List Char} (hbefore : '\n' ∉ before) (number start : Nat)
    (front back : List Char) {p : Position}
    (hp : p = Position.after ⟨start + byteLength before, number, 1 + before.length⟩ front) :
    (lineAt p.offset (numbered number start (lines (before ++ (front ++ back))))).number = p.line ∧
      (lineAt p.offset (numbered number start (lines (before ++ (front ++ back))))).columnOf
        p.offset = p.column := by
  induction front generalizing before number start with
  | nil =>
    subst hp
    obtain ⟨l, ls, h⟩ := List.exists_cons_of_ne_nil (lines_ne_nil back)
    have hline : lineAt (start + byteLength before) (numbered number start ((before ++ l) :: ls)) =
        ⟨number, start, before ++ l⟩ := by
      apply lineAt_numbered_of_lt
      intro hls
      have hl : l ≠ [] := fun hl => hls (eq_nil_of_lines (hl ▸ h))
      have := byteLength_pos hl
      rw [byteLength_append]
      omega
    rw [List.nil_append, lines_append hbefore h, Position.after_nil, hline]
    refine ⟨rfl, ?_⟩
    rw [Line.columnOf, Nat.add_sub_cancel_left, countWithin_append]
  | cons c front ih =>
    by_cases hc : c = '\n'
    · subst hc
      -- the line ends here, and the next one has nothing passed yet
      have hlines : lines (before ++ ('\n' :: front ++ back)) =
          (before ++ ['\n']) :: lines (front ++ back) := lines_append hbefore rfl
      have hp' : p = Position.after
          ⟨start + byteLength (before ++ ['\n']) + byteLength [], number + 1,
            1 + ([] : List Char).length⟩ front := by
        rw [hp, Position.after_cons, Position.next, if_pos rfl, byteLength_append]
        rfl
      have hle : start + byteLength (before ++ ['\n']) ≤ p.offset := by
        rw [hp', Position.offset_after]
        exact Nat.le_add_right _ _
      rw [hlines, lineAt_numbered_of_le (lines_ne_nil _) hle]
      exact ih List.not_mem_nil _ _ hp'
    · have hbefore' : '\n' ∉ before ++ [c] := by
        simp [hbefore, Ne.symm hc]
      have hp' : p = Position.after
          ⟨start + byteLength (before ++ [c]), number, 1 + (before ++ [c]).length⟩ front := by
        rw [hp, Position.after_cons, Position.next, if_neg hc, byteLength_append,
          List.length_append, Nat.add_assoc start, Nat.add_assoc 1]
        rfl
      have h := ih hbefore' number start hp'
      rwa [List.append_assoc, List.singleton_append] at h

/-- The lookup of an offset between two characters finds the line and column that a position has
after the characters in front of it. -/
theorem lineAt_lineTable (front back : List Char) :
    (lineAt (byteLength front) (lineTable (front ++ back))).number =
        (Position.first.after front).line ∧
      (lineAt (byteLength front) (lineTable (front ++ back))).columnOf (byteLength front) =
        (Position.first.after front).column := by
  have h := lineAt_numbered List.not_mem_nil 1 0 front back (p := Position.first.after front) rfl
  rwa [Position.offset_after, show Position.first.offset = 0 from rfl, Nat.zero_add] at h

/-! ### The line found -/

/-- A line of the table is a part of the text, at its offset. -/
theorem exists_of_mem_numbered {number start : Nat} {ls : List (List Char)} {line : Line}
    (h : line ∈ numbered number start ls) :
    ∃ before after, ls.flatten = before ++ line.chars ++ after ∧
      line.start = start + byteLength before := by
  induction ls generalizing number start with
  | nil => cases h
  | cons l ls ih =>
    rcases List.mem_cons.1 h with rfl | h
    · exact ⟨[], ls.flatten, rfl, rfl⟩
    · obtain ⟨before, after, hls, hstart⟩ := ih h
      refine ⟨l ++ before, after, ?_, ?_⟩
      · rw [List.flatten_cons, hls, List.append_assoc, List.append_assoc, List.append_assoc]
      · rw [hstart, byteLength_append, Nat.add_assoc]

theorem flatten_lines (cs : List Char) : (lines cs).flatten = cs := by
  fun_induction lines cs with
  | case1 => rfl
  | case2 cs ih => exact congrArg ('\n' :: ·) ih
  | case3 c cs _ h => exact absurd h (lines_ne_nil cs)
  | case4 c cs _ l ls h ih =>
    rw [h] at ih
    exact congrArg (c :: ·) ih

theorem exists_of_mem_lineTable {line : Line} (h : line ∈ lineTable cs) :
    ∃ before after, cs = before ++ line.chars ++ after ∧ line.start = byteLength before := by
  obtain ⟨before, after, hcs, hstart⟩ := exists_of_mem_numbered h
  rw [flatten_lines] at hcs
  exact ⟨before, after, hcs, hstart.trans (Nat.zero_add _)⟩

/-- The lookup finds a line, and the next lines start behind the offset. -/
theorem lineAt_isLast_numbered {number start offset : Nat} (hls : ls ≠ [])
    (hstart : start ≤ offset) :
    ∃ before after, numbered number start ls =
        before ++ lineAt offset (numbered number start ls) :: after ∧
      (lineAt offset (numbered number start ls)).start ≤ offset ∧
      ∀ line ∈ after, offset < line.start := by
  induction ls generalizing number start with
  | nil => exact absurd rfl hls
  | cons l ls ih =>
    by_cases h : ls ≠ [] ∧ start + byteLength l ≤ offset
    · obtain ⟨before, after, htable, hle, hafter⟩ :=
        @ih (number + 1) (start + byteLength l) h.1 h.2
      rw [lineAt_numbered_of_le h.1 h.2]
      exact ⟨⟨number, start, l⟩ :: before, after, congrArg (_ :: ·) htable, hle, hafter⟩
    · have hlt : ls ≠ [] → offset < start + byteLength l := fun hls =>
        Nat.not_le.1 fun hle => h ⟨hls, hle⟩
      rw [lineAt_numbered_of_lt hlt]
      refine ⟨[], _, rfl, hstart, fun line hline => ?_⟩
      obtain ⟨before, -, -, hline'⟩ := exists_of_mem_numbered hline
      have hls : ls ≠ [] := by
        rintro rfl
        cases hline
      have := hlt hls
      omega

/-- The lookup finds the last line that starts at or before the offset. -/
theorem lineAt_isLast (offset : Nat) (cs : List Char) :
    ∃ before after, lineTable cs = before ++ lineAt offset (lineTable cs) :: after ∧
      (lineAt offset (lineTable cs)).start ≤ offset ∧ ∀ line ∈ after, offset < line.start :=
  lineAt_isLast_numbered (lines_ne_nil cs) (Nat.zero_le _)

/-! ### The column found -/

/-- A boundary is where a text can be cut in two. -/
theorem exists_of_isValid {source : String} {n : Nat} (h : String.Pos.Raw.IsValid source ⟨n⟩) :
    ∃ before after, source.toList = before ++ after ∧ byteLength before = n := by
  obtain ⟨s₁, s₂, hs, hp⟩ := String.Pos.Raw.isValid_iff_exists_append.1 h
  refine ⟨s₁.toList, s₂.toList, by rw [hs, String.toList_append], ?_⟩
  rw [byteLength_toList]
  exact (congrArg String.Pos.Raw.byteIdx hp).symm

theorem not_isValid_within {source : String} {c : Char} {before after : List Char}
    (h : source.toList = before ++ c :: after) {i : Nat} (hi : i + 1 < c.utf8Size) :
    ¬ String.Pos.Raw.IsValid source ⟨byteLength before + i + 1⟩ := by
  intro hvalid
  obtain ⟨cut, rest, hcut, hlength⟩ := exists_of_isValid hvalid
  rw [hcut] at h
  rcases List.append_eq_append_iff.1 h with ⟨x, hx, -⟩ | ⟨x, hx, hx'⟩
  · have := congrArg byteLength hx
    rw [byteLength_append] at this
    omega
  · -- what `cut` has beyond `before` holds all of `c`, unless it is nothing
    have hlength' := congrArg byteLength hx
    rw [byteLength_append] at hlength'
    cases x with
    | nil =>
      rw [byteLength_nil] at hlength'
      omega
    | cons d x =>
      cases hx'
      rw [byteLength_cons] at hlength'
      omega

/-- Counting the characters that end within some bytes is counting the boundaries there. -/
theorem countWithin_eq_count {source : String} {before after : List Char}
    (h : source.toList = before ++ cs ++ after) (n : Nat) :
    countWithin n cs =
      Nat.count (fun i => String.Pos.Raw.IsValid source ⟨byteLength before + i + 1⟩)
        (min n (byteLength cs)) := by
  induction cs generalizing before n with
  | nil => rw [byteLength_nil, Nat.min_zero, Nat.count_zero, countWithin]
  | cons c cs ih =>
    have hc : source.toList = before ++ c :: (cs ++ after) := h.trans (List.append_assoc _ _ _)
    have h' : source.toList = (before ++ [c]) ++ cs ++ after := by simp [hc]
    have hpos := c.utf8Size_pos
    rw [countWithin, byteLength_cons]
    split
    · next hn =>
      have hmin : min n (c.utf8Size + byteLength cs) =
          (c.utf8Size - 1) + 1 + min (n - c.utf8Size) (byteLength cs) := by
        omega
      have hlast : String.Pos.Raw.IsValid source ⟨byteLength before + (c.utf8Size - 1) + 1⟩ := by
        have hvalid := isValid_byteLength (h'.trans (List.append_assoc _ _ _))
        have hsize : byteLength (before ++ [c]) = byteLength before + (c.utf8Size - 1) + 1 := by
          rw [byteLength_append, byteLength_cons, byteLength_nil]
          omega
        rwa [hsize] at hvalid
      have hnone := Nat.count_of_forall_not
        (p := fun i => String.Pos.Raw.IsValid source ⟨byteLength before + i + 1⟩)
        (n := c.utf8Size - 1) fun i hi => not_isValid_within hc (by omega)
      rw [hmin, Nat.count_add, Nat.count_succ, hnone, if_pos hlast, ih h', Nat.zero_add,
        Nat.add_comm]
      congr 1
      simp only [byteLength_append, byteLength_cons, byteLength_nil, Nat.add_assoc, Nat.add_zero,
        Nat.sub_add_cancel hpos]
    · next hn =>
      rw [Nat.min_eq_left (by omega)]
      exact (Nat.count_of_forall_not fun i hi => not_isValid_within hc (by omega)).symm

/-- A column is counted in the boundaries between the start of the line and the offset. -/
theorem Line.columnOf_eq_count {source : String} {line : Line}
    (h : line ∈ lineTable source.toList) (offset : Nat) :
    line.columnOf offset =
      1 + Nat.count (fun i => String.Pos.Raw.IsValid source ⟨line.start + i + 1⟩)
        (min (offset - line.start) (byteLength line.chars)) := by
  obtain ⟨before, after, hsource, hstart⟩ := exists_of_mem_lineTable h
  rw [columnOf, countWithin_eq_count hsource, hstart]

end Blueprint.Text
