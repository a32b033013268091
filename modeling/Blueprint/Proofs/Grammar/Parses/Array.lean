import Blueprint.Proofs.Grammar.Parses.Cuts
import Blueprint.Proofs.Grammar.Reads.Array

/-!
# Strings and arrays are parsed

What is bad in a text has to be parsed as it is (`Script.Sound`): bad pairs, and bad contents of
arrays.
-/

namespace Blueprint

open NodeKind Form Token Sketch

/-- Below `above` the rule parses every value, and does nothing where no value starts. -/
structure ParsesValue (S : Script) (above : List NodeKind) (r : Rule Outcome) : Prop where
  parses : ∀ cs rest, Regular Token.kind S.bad [.node .value cs] → Ends (rest.map Token.kind) →
    r.Parses S above [.node .value cs] rest (·.isMatch = true)
  noMatch : ∀ s : State, s.current ∉ valueStart → r s = ⟨.noMatch, [], s⟩

/-- What is bad in a text is parsed as it is, and its brackets are balanced: a pair where a comma or
the closing brace comes next, the contents of an array where the closing bracket does. -/
structure Script.Sound (S : Script) : Prop where
  start : ∀ cs, S.bad (.node .pair cs) → ∃ t ts, leavesAll cs = t :: ts ∧ t.kind = .fieldName
  start_elements : ∀ cs, S.bad (.node .elements cs) →
    ∃ t ts, leavesAll cs = t :: ts ∧ t.kind ∉ [TokenKind.arrayEnd, .eof]
  balanced : ∀ x, S.bad x → Balanced (x.leaves.map Token.kind)
  parses : ∀ {value : Rule Outcome} {above : List NodeKind} {cs : List (Sketch Token)} {b : Token}
    {rest : List Token}, ParsesValue S (.pair :: above) value → S.bad (.node .pair cs) →
    b.kind ∈ [TokenKind.separator, .objectEnd] →
    (Rule.pair S.limits value).Parses S above [.node .pair cs] (b :: rest) fun _ => True
  parses_elements : ∀ {above : List NodeKind} {cs : List (Sketch Token)} {b : Token}
    {rest : List Token}, S.bad (.node .elements cs) → b.kind = .arrayEnd →
    (Rule.elements S.limits).Parses S above [.node .elements cs] (b :: rest) fun _ => True

namespace Rule

namespace Parses

variable {α : Type} {S : Script} {above : List NodeKind} {xs cs : List (Sketch Token)}
  {rest : List Token}

/-- What goes on with a `+` ends where none comes next. -/
theorem ends {f : State → Bool} {r : Rule α} {a : α} {p : α → Prop}
    (hrest : Ends (rest.map Token.kind)) (ha : p a) :
    (do if ← view fun s => s.current == .plus && f s then r else return a : Rule α).Parses S above []
      rest p := by
  refine view_bind (b := false) (fun _ H hs => ?_) (pure ha)
  rw [← Bool.not_eq_true]
  exact H.not_at_plus (hs ▸ hrest) _

/-- What goes on with a `+` goes on where one comes next with the right token behind it. -/
theorem goes_on {k : TokenKind} {w : List TokenKind} {r r' : Rule α} {p : α → Prop}
    (hxs : ahead xs rest = .plus :: k :: w) (h : r.Parses S above xs rest p) :
    (do if ← view fun s => s.current == .plus && s.nth 1 == k then r else r' : Rule α).Parses S
      above xs rest p :=
  view_bind (fun _ H hs => H.at_two (hs.trans hxs)) h

/-! ### Strings -/

theorem stringTail (budget : Nat)
    (hxs : symbols Token.kind xs ∈ (many (token .plus * token .string)).matches')
    (hrest : Ends (rest.map Token.kind)) (hbudget : (leavesAll xs ++ rest).length ≤ budget) :
    (Rule.stringTail budget).Parses S above xs rest fun _ => True := by
  induction budget generalizing xs with
  | zero =>
    rcases mem_many_iff.1 hxs with hnil | ⟨_, ⟨_, rfl, _, rfl, rfl⟩, _, -, h⟩
    · cases (symbols_eq_nil_iff _).1 hnil
      exact ends hrest trivial
    · obtain ⟨a, ys, rfl, -⟩ := (symbols_eq_token_cons_iff _).1 h.symm
      cases hbudget
  | succ budget ih =>
    rcases mem_many_iff.1 hxs with hnil | ⟨_, ⟨_, rfl, _, rfl, rfl⟩, _, hzs, h⟩
    · cases (symbols_eq_nil_iff _).1 hnil
      exact ends hrest trivial
    · obtain ⟨a, ys, rfl, ha, hys⟩ := (symbols_eq_token_cons_iff _).1 h.symm
      obtain ⟨b, zs, rfl, hb, rfl⟩ := (symbols_eq_token_cons_iff _).1 hys
      refine goes_on (w := ahead zs rest) (by rw [← ha, ← hb]; rfl) ?_
      refine bind [.leaf a] (.leaf b :: zs) bump fun _ _ => ?_
      refine bind [.leaf b] zs bump fun _ _ => ih hzs ?_
      exact Nat.le_of_succ_le (Nat.le_of_succ_le_succ hbudget)

theorem stringExpr (H : Regular Token.kind S.bad [.node .stringExpr cs])
    (hlevels : levels above ≤ S.limits.maxDepth) (hrest : Ends (rest.map Token.kind)) :
    (Rule.stringExpr S.limits).Parses S above [.node .stringExpr cs] rest fun _ => True := by
  obtain ⟨a, ys, rfl, ha, hys⟩ := H.stringExpr
  refine isAt_bind (k := .string) ha ?_
  refine (nodeOutcome_flat (p := fun _ => True) hlevels (by decide) ?_).mono fun _ _ => trivial
  refine bind [.leaf a] ys bump fun _ _ => ?_
  exact (of_length (stringTail _ hys hrest)).bind_pure fun _ _ => trivial

/-! ### Arrays -/

theorem arrayElement (H : Regular Token.kind S.bad [.node .arrayElement cs])
    (hlevels : levels above ≤ S.limits.maxDepth) :
    Rule.arrayElement.Parses S above [.node .arrayElement cs] rest (·.isMatch = true) := by
  obtain ⟨a, rfl, hmem⟩ := H.arrayElement
  refine isAtAny_bind (k := a.kind) rfl ?_
  rw [if_pos (List.contains_iff_mem.2 hmem)]
  exact nodeOutcome_flat (p := fun _ => True) hlevels (by decide)
    (bump.bind_pure fun _ _ => trivial)

theorem elementsLoop (budget : Nat) (H : Regular Token.kind S.bad xs)
    (hxs : symbols Token.kind xs ∈ (list (Form.node .arrayElement)).matches')
    (hlevels : levels above ≤ S.limits.maxDepth) {e : Token} (he : e.kind = .arrayEnd)
    (hbudget : (leavesAll xs ++ e :: rest).length ≤ budget) :
    (Rule.elementsLoop S.limits budget).Parses S above xs (e :: rest) fun _ => True := by
  induction budget generalizing xs with
  | zero =>
    rw [List.length_append, List.length_cons] at hbudget
    omega
  | succ budget ih =>
    rcases mem_list_iff.1 hxs with h | ⟨w, hw, h⟩
    · obtain ⟨cs, ys, rfl, hys⟩ := (symbols_eq_node_cons_iff _).1 h
      cases (symbols_eq_nil_iff _).1 hys
      refine bind [.node .arrayElement cs] [] (arrayElement H hlevels)
        fun o ho => ?_
      rw [ho]
      exact current_bind (k := .arrayEnd) he (pure trivial)
    · obtain ⟨cs, ys, rfl, hys⟩ := (symbols_eq_node_cons_iff _).1 h
      obtain ⟨a, zs, rfl, ha, rfl⟩ := (symbols_eq_token_cons_iff _).1 hys
      refine bind [.node .arrayElement cs] (.leaf a :: zs)
        (arrayElement H.head hlevels) fun o ho => ?_
      rw [ho]
      refine current_bind (k := .separator) ha ?_
      refine bind [.leaf a] zs bump fun _ _ => ?_
      rcases mem_optional.1 hw with hnil | hlist
      · cases (symbols_eq_nil_iff _).1 hnil
        exact isAt_bind (k := .arrayEnd) he (pure trivial)
      · obtain ⟨ds, us, rfl⟩ := exists_node_of_list _ hlist
        obtain ⟨b, rfl, hmem⟩ := H.tail.of_leaf.head.arrayElement
        refine isAt_bind (k := b.kind) rfl ?_
        have hne : (b.kind == TokenKind.arrayEnd) = false := by
          rw [← Bool.not_eq_true, beq_iff_eq]
          rintro hb
          rw [hb] at hmem
          exact absurd hmem (by decide)
        rw [hne, if_neg Bool.false_ne_true]
        refine ih H.tail.of_leaf hlist ?_
        simp only [leavesAll, leaves, List.length_append, List.length_cons] at hbudget ⊢
        omega

theorem elements (hS : S.Sound) (H : Regular Token.kind S.bad [.node .elements cs])
    (hlevels : levels above ≤ S.limits.maxDepth) {e : Token} (he : e.kind = .arrayEnd) :
    (Rule.elements S.limits).Parses S above [.node .elements cs] (e :: rest) fun _ => True := by
  by_cases hbad : S.bad (.node .elements cs)
  · exact hS.parses_elements hbad he
  obtain ⟨hxs, Hcs⟩ := H.elements.resolve_left hbad
  have hreach : NodeKind.elements.reach above (symbols Token.kind cs) ≤ S.limits.maxDepth :=
    (reach_of_frail (by decide) _ _).trans_le hlevels
  refine (nodeOutcome (p := fun _ => True) hreach (.inr hbad) ?_).mono fun _ _ => trivial
  have hlevels' : levels (.elements :: above) ≤ S.limits.maxDepth := hlevels
  exact of_length (elementsLoop _ Hcs hxs hlevels' he)

/-- From inside a pair of brackets through the closing one. -/
theorem closes {close : TokenKind} {r : Rule Outcome} {b : Token} (hb : b.kind = close)
    (h : xs = [] ∨ (ahead xs (b :: rest)).headD .eof ∉ [close, .eof] ∧
      r.Parses S above xs (b :: rest) fun _ => True) :
    (do
      let ok ← unlessAt [close, .eof] r.succeeds
      let closed ← Rule.expect close
      return ok && closed : Rule Bool).Parses S above (xs ++ [Sketch.leaf b]) rest fun _ => True := by
  refine bind xs [.leaf b] (p := fun _ => True) ?_ fun _ _ =>
    (expect hb).bind_pure fun _ _ => trivial
  rcases h with rfl | ⟨hk, hr⟩
  · refine isAtAny_bind (k := close) hb ?_
    rw [if_pos (List.contains_iff_mem.2 (.head _))]
    exact pure trivial
  · refine isAtAny_bind (k := (ahead xs (b :: rest)).headD .eof) rfl ?_
    rw [if_neg fun hc => hk (List.contains_iff_mem.1 hc)]
    exact hr.succeeds

section
variable (room : Bool) (hroom : room = true ↔ levels above < S.limits.maxDepth)
  (hS : S.Sound)
include hroom hS

theorem array (H : Regular Token.kind S.bad [.node .array cs]) :
    (Rule.array S.limits room).Parses S (.arrayExpr :: above) [.node .array cs] rest
      fun _ => True := by
  obtain ⟨a, ms, b, hcs, ha, hb, hms⟩ := H.array
  have hreach : reach .array (.arrayExpr :: above) (symbols Token.kind cs) = levels above + 1 :=
    reach_of_ne (by decide) _ _
  refine isAt_bind (k := .arrayStart) (by rw [hcs]; exact ha) ?_
  cases room with
  | false =>
    have hle := Nat.not_lt.1 (mt hroom.2 nofun)
    exact tooDeep (hreach ▸ Nat.lt_succ_of_le hle) (H.group hS.balanced (.inl rfl))
  | true =>
    have hlt := hroom.1 rfl
    refine mono (nodeOutcome (p := fun _ => True) (hreach ▸ hlt) (.inl (by decide)) ?_)
      fun _ _ => trivial
    rw [hcs]
    refine bind [.leaf a] (ms ++ [.leaf b]) bump fun _ _ => closes hb ?_
    refine hms.imp_right ?_
    rintro ⟨is, rfl, His⟩
    have hlevels : levels (.array :: .arrayExpr :: above) ≤ S.limits.maxDepth := hlt
    refine ⟨?_, elements hS His hlevels hb⟩
    rcases His.elements with hbad | ⟨his, His⟩
    · obtain ⟨t, ts, hts, ht⟩ := hS.start_elements is hbad
      rw [ahead, leavesAll_node, hts]
      exact ht
    · obtain ⟨ds, us, rfl⟩ := exists_node_of_list _ his
      obtain ⟨c, rfl, hmem⟩ := His.head.arrayElement
      have hne : ∀ k ∈ elementKinds, k ∉ [TokenKind.arrayEnd, .eof] := by decide
      exact hne _ hmem

theorem arrayTail (budget : Nat) (H : Regular Token.kind S.bad xs)
    (hxs : symbols Token.kind xs ∈ (many (token .plus * Form.node .array)).matches')
    (hrest : Ends (rest.map Token.kind)) (hbudget : (leavesAll xs ++ rest).length ≤ budget) :
    (Rule.arrayTail S.limits room budget).Parses S (.arrayExpr :: above) xs rest fun _ => True := by
  induction budget generalizing xs with
  | zero =>
    rcases mem_many_iff.1 hxs with hnil | ⟨_, ⟨_, rfl, _, rfl, rfl⟩, _, -, h⟩
    · cases (symbols_eq_nil_iff _).1 hnil
      exact ends hrest trivial
    · obtain ⟨a, ys, rfl, -⟩ := (symbols_eq_token_cons_iff _).1 h.symm
      cases hbudget
  | succ budget ih =>
    rcases mem_many_iff.1 hxs with hnil | ⟨_, ⟨_, rfl, _, rfl, rfl⟩, _, hzs, h⟩
    · cases (symbols_eq_nil_iff _).1 hnil
      exact ends hrest trivial
    · obtain ⟨a, ys, rfl, ha, hys⟩ := (symbols_eq_token_cons_iff _).1 h.symm
      obtain ⟨cs, zs, rfl, rfl⟩ := (symbols_eq_node_cons_iff _).1 hys
      have Hcs := H.of_leaf.head
      obtain ⟨b, ms, c, rfl, hb, -⟩ := Hcs.array
      refine goes_on (k := .arrayStart) (by rw [← ha, ← hb]; rfl) ?_
      refine bind [.leaf a] (.node .array _ :: zs) bump fun _ _ => ?_
      refine bind [.node .array _] zs (array room hroom hS Hcs) fun _ _ => ?_
      refine (ih H.of_leaf.tail hzs ?_).bind_pure fun _ _ => trivial
      simp only [leavesAll, leaves, List.length_append, List.length_cons] at hbudget ⊢
      omega

theorem arrayExpr (H : Regular Token.kind S.bad [.node .arrayExpr cs])
    (hlevels : levels above ≤ S.limits.maxDepth) (hrest : Ends (rest.map Token.kind)) :
    (Rule.arrayExpr S.limits room).Parses S above [.node .arrayExpr cs] rest fun _ => True := by
  obtain ⟨as, ys, rfl, Ha, Hys, hys⟩ := H.arrayExpr
  have hstart : (ahead [.node .arrayExpr (.node .array as :: ys)] rest).headD .eof =
      .arrayStart := by
    obtain ⟨a, ms, b, rfl, ha, -⟩ := Ha.array
    exact ha
  refine isAt_bind hstart ?_
  refine (nodeOutcome_flat (p := fun _ => True) hlevels (by decide) ?_).mono fun _ _ => trivial
  refine bind [.node .array as] ys (array room hroom hS Ha) fun _ _ => ?_
  exact (of_length (arrayTail room hroom hS _ Hys hys hrest)).bind_pure fun _ _ => trivial

end

end Parses

end Rule

end Blueprint
