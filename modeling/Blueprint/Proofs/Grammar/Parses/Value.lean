import Blueprint.Proofs.Grammar.Parses.Members
import Blueprint.Proofs.Grammar.Levels

/-!
# Values are parsed

`InnerParses` is to parsing what `InnerReads` is to reading, but a level without rules for the next
one still parses what would need them: it cuts it out. So every value is parsed (`parsesValue`).
-/

namespace Blueprint

open NodeKind Form Token Sketch

/-- From a reference on, the rule parses every chain of references that it has the rounds for. -/
def ParsesLinks (S : Script) (above : List NodeKind) (r : Nat → Rule Bool) : Prop :=
  ∀ budget cs rest, Regular Token.kind S.bad [.node .variableRefExpr cs] →
    Ends (rest.map Token.kind) → (leavesAll cs ++ rest).length ≤ budget →
    (r budget).Parses S (.variableRefExpr :: above) cs rest fun _ => True

/-- The rules of the next level parse what is regular. -/
abbrev InnerParses (S : Script) : Option Inner → Nat → Prop :=
  Inner.Satisfies S.limits (ParsesValue S) (ParsesLinks S)

namespace Rule

/-- Where no value starts there is none. -/
theorem value_of_not_start {limits : Limits} {inner : Option Inner} {s : State}
    (h : s.current ∉ valueStart) : value limits inner s = ⟨.noMatch, [], s⟩ := by
  have hc : valueStart.contains s.current = false := by
    rwa [← Bool.not_eq_true, List.contains_iff_mem]
  simp only [value, isAtAny, bind_apply, view_apply, hc]
  rfl

namespace Parses

variable {S : Script} {inner : Option Inner} {room : Nat} {above : List NodeKind}
  {cs : List (Sketch Token)} {rest : List Token}

/-- What a value that is no reference starts with is no reference either. -/
theorem headD_operand (H : Regular Token.kind S.bad [.node .value cs])
    (hcs : symbols Token.kind cs ≠ [.node .variableRefExpr]) :
    (ahead cs rest).headD .eof ≠ .variableValueRef := by
  rcases H.value with ⟨a, rfl, ha | ha⟩ | ⟨k, ds, rfl, Hd, rfl | rfl | rfl | rfl⟩
  · exact fun h => nomatch ha.symm.trans h
  · exact fun h => nomatch ha.symm.trans h
  · obtain ⟨a, ys, rfl, ha, -⟩ := Hd.stringExpr
    exact fun h => nomatch ha.symm.trans h
  · obtain ⟨as, ys, rfl, Ha, -⟩ := Hd.arrayExpr
    obtain ⟨a, ms, b, rfl, ha, -⟩ := Ha.array
    exact fun h => nomatch ha.symm.trans h
  · obtain ⟨a, ms, b, rfl, ha, -⟩ := Hd.object
    exact fun h => nomatch ha.symm.trans h
  · exact absurd rfl hcs

/-- The rest of a chain behind a plus, as a reference in a value of its own. -/
theorem nestedLinks {links : Nat → Rule Bool} {budget : Nat}
    (hlinks : ParsesLinks S (.value :: .variableRefExpr :: above) links)
    (H : Regular Token.kind S.bad [.node .variableRefExpr cs]) (hrest : Ends (rest.map Token.kind))
    (hlen : (leavesAll cs ++ rest).length ≤ budget)
    (hlevels : levels (.variableRefExpr :: .value :: .variableRefExpr :: above) ≤
      S.limits.maxDepth) :
    (Rule.node .value (Rule.node .variableRefExpr (links budget))).Parses S
      (.variableRefExpr :: above) [.node .value [.node .variableRefExpr cs]] rest
      fun _ => True := by
  have hvalue : reach .value (.variableRefExpr :: above)
      (symbols Token.kind [.node .variableRefExpr cs]) =
        levels (.variableRefExpr :: above) + 1 := if_pos ⟨rfl, rfl⟩
  have hreference := reach_of_ne (by decide : NodeKind.variableRefExpr ≠ .value)
    (.value :: .variableRefExpr :: above) (symbols Token.kind cs)
  exact node (hvalue ▸ hlevels) (.inl (by decide))
    (node (hreference ▸ hlevels) (.inl (by decide)) (hlinks _ _ _ H hrest hlen))

variable (hS : S.Sound) (hinner : InnerParses S inner room)
include hS hinner

theorem object (H : Regular Token.kind S.bad [.node .object cs])
    (hroom : levels above + room = S.limits.maxDepth) :
    (Rule.object S.limits inner).Parses S above [.node .object cs] rest fun _ => True := by
  obtain ⟨a, ms, b, hcs, ha, hb, hms⟩ := H.object
  have hreach : reach .object above (symbols Token.kind cs) = levels above + 1 :=
    reach_of_ne (by decide) _ _
  refine isAt_bind (k := .objectStart) (by rw [hcs]; exact ha) ?_
  cases hinner with
  | none =>
    refine tooDeep ?_ (H.group hS.balanced (.inr rfl))
    rw [hreach, ← hroom]
    exact Nat.lt_succ_self _
  | @some rules room hvalue _ =>
    have hroom' : levels (.pair :: .members :: .object :: above) + room = S.limits.maxDepth :=
      levels_cons_add (k := .object) rfl hroom
    have hlevels : levels (.object :: above) ≤ S.limits.maxDepth := Nat.le.intro hroom'
    refine mono (nodeOutcome (p := fun _ => True) (hreach ▸ hlevels) (.inl (by decide)) ?_)
      fun _ _ => trivial
    rw [hcs]
    exact body hS (hvalue _ nofun hroom') ha hb hlevels hms

/-- A value that is no reference. -/
theorem operand (H : Regular Token.kind S.bad [.node .value cs])
    (hcs : symbols Token.kind cs ≠ [.node .variableRefExpr])
    (hroom : levels above + room = S.limits.maxDepth) (hrest : Ends (rest.map Token.kind)) :
    (Rule.operand S.limits inner).Parses S (.value :: above) cs rest fun _ => True := by
  have hroom' : levels (.value :: above) + room = S.limits.maxDepth := hroom
  have hlevels : levels (.value :: above) ≤ S.limits.maxDepth := Nat.le.intro hroom'
  rcases H.value with ⟨a, rfl, ha | ha⟩ | ⟨k, ds, rfl, Hd, rfl | rfl | rfl | rfl⟩
  · exact current_bind (k := .bool) ha (bump.bind_pure fun _ _ => trivial)
  · exact current_bind (k := .number) ha (bump.bind_pure fun _ _ => trivial)
  · refine current_bind (k := .string) ?_ (stringExpr Hd hlevels hrest).succeeds
    obtain ⟨a, ys, rfl, ha, -⟩ := Hd.stringExpr
    exact ha
  · have hspare : inner.isSome = true ↔ levels (.value :: above) < S.limits.maxDepth :=
      hinner.isSome_iff hroom'
    refine current_bind (k := .arrayStart) ?_
      (arrayExpr _ hspare hS Hd hlevels hrest).succeeds
    obtain ⟨as, ys, rfl, Ha, -⟩ := Hd.arrayExpr
    obtain ⟨a, ms, b, rfl, ha, -⟩ := Ha.array
    exact ha
  · refine current_bind (k := .objectStart) ?_ (object hS hinner Hd hroom').succeeds
    obtain ⟨a, ms, b, rfl, ha, -⟩ := Hd.object
    exact ha
  · exact absurd rfl hcs

theorem links (hroom : levels (.variableRefExpr :: above) + room = S.limits.maxDepth) :
    ParsesLinks S above (Rule.links S.limits inner) := by
  intro budget cs rest H hrest hbudget
  obtain ⟨a, ha, hcs⟩ := H.variableRefExpr
  cases budget with
  | zero => rcases hcs with rfl | ⟨b, vs, rfl, -⟩ <;> cases hbudget
  | succ budget =>
    rcases hcs with rfl | ⟨b, vs, rfl, hb, Hv⟩
    · exact bind [.leaf a] [] bump fun _ _ => ends hrest trivial
    · obtain ⟨k, hk, ks, hks⟩ := Hv.exists_start hS.balanced
      refine bind [.leaf a] [.leaf b, .node .value vs] bump fun _ _ => ?_
      have hahead : ahead [.leaf b, .node .value vs] rest =
          .plus :: k :: (ks ++ rest.map Token.kind) := by
        rw [ahead, leavesAll, leavesAll_node, leaves, List.map_append, List.map_append, hks,
          ← hb]
        rfl
      refine view_bind (b := true) (fun s Hs hs => Hs.atTail (hs.trans hahead) hk) ?_
      refine bind [.leaf b] [.node .value vs] bump fun _ _ => ?_
      by_cases hvs : symbols Token.kind vs = [.node .variableRefExpr]
      · obtain ⟨ds, us, rfl, hus⟩ := (symbols_eq_node_cons_iff _).1 hvs
        cases (symbols_eq_nil_iff _).1 hus
        have Hd := (Hv.of_node (by decide)).2
        refine isAt_bind (k := .variableValueRef) ?_ ?_
        · obtain ⟨c, hc, rfl | ⟨_, _, rfl, -⟩⟩ := Hd.variableRefExpr
          · exact hc
          · exact hc
        cases hinner with
        | none =>
          have hreach : reach .value (.variableRefExpr :: above)
              (symbols Token.kind [.node .variableRefExpr ds]) =
                levels (.variableRefExpr :: above) + 1 := if_pos ⟨rfl, hvs⟩
          refine deep ?_ ?_ ((Yields.skipChain (Hv.chain hS.balanced) hrest).bind_pure)
          · rw [hreach, ← hroom]
            exact Nat.lt_succ_self _
          · intro hnil
            rw [hnil] at hks
            cases hks
        | @some rules room _ hlinks =>
          have hroom' : levels (.variableRefExpr :: .value :: .variableRefExpr :: above) + room =
              S.limits.maxDepth := levels_cons_add rfl hroom
          refine bind_pure (nestedLinks (hlinks _ hroom') Hd hrest ?_ (Nat.le.intro hroom'))
            fun _ _ => trivial
          simp only [leavesAll, leaves, List.length_append, List.length_cons, List.length_nil]
            at hbudget ⊢
          omega
      · refine isAt_bind (k := (ahead vs rest).headD .eof) ?_ ?_
        · rw [ahead, leavesAll_node, ahead]
        have hne : ((ahead vs rest).headD .eof == TokenKind.variableValueRef) = false := by
          rw [← Bool.not_eq_true, beq_iff_eq]
          exact headD_operand Hv hvs
        rw [hne, if_neg Bool.false_ne_true]
        have hreach : reach .value (.variableRefExpr :: above) (symbols Token.kind vs) =
            levels (.variableRefExpr :: above) := if_neg fun h => hvs h.2
        refine bind_pure (node (p := fun _ => True) ?_ (.inl (by decide)) ?_) fun _ _ => trivial
        · rw [hreach]
          exact Nat.le.intro hroom
        · exact operand hS hinner Hv hvs hroom hrest

theorem value (habove : above.head? ≠ some .variableRefExpr)
    (hroom : levels above + room = S.limits.maxDepth) :
    ParsesValue S above (Rule.value S.limits inner) := by
  refine ⟨fun cs rest H hrest => ?_, fun s hs => value_of_not_start hs⟩
  obtain ⟨k, hk, ks, hks⟩ := H.exists_start hS.balanced
  have hhead : (ahead [.node .value cs] rest).headD .eof = k := by
    rw [ahead, leavesAll_node, List.map_append, hks]
    rfl
  refine isAtAny_bind hhead ?_
  rw [if_pos (List.contains_iff_mem.2 hk)]
  have hhead' : (ahead cs rest).headD .eof = k := by
    rwa [ahead, leavesAll_node] at hhead
  by_cases hcs : symbols Token.kind cs = [.node .variableRefExpr]
  · obtain ⟨ds, us, rfl, hus⟩ := (symbols_eq_node_cons_iff _).1 hcs
    cases (symbols_eq_nil_iff _).1 hus
    have Hd := (H.of_node (by decide)).2
    have hroom' : levels (.variableRefExpr :: .value :: above) + room = S.limits.maxDepth := by
      rw [levels_variableRefExpr habove, hroom]
    have hreach : reach .value above (symbols Token.kind [.node .variableRefExpr ds]) =
        levels (.variableRefExpr :: .value :: above) := if_pos ⟨rfl, hcs⟩
    have hlevels := Nat.le.intro hroom'
    refine nodeOutcome (p := fun _ => True) (hreach ▸ hlevels) (.inl (by decide)) ?_
    have hstart : (ahead [.node .variableRefExpr ds] rest).headD .eof = .variableValueRef := by
      obtain ⟨c, hc, rfl | ⟨_, _, rfl, -⟩⟩ := Hd.variableRefExpr
      · exact hc
      · exact hc
    refine isAt_bind hstart ?_
    refine succeeds (p := fun _ => True) ?_
    refine isAt_bind hstart ?_
    have hreach' := reach_of_ne (by decide : NodeKind.variableRefExpr ≠ .value)
      (.value :: above) (symbols Token.kind ds)
    refine mono (nodeOutcome (p := fun _ => True) (hreach' ▸ hlevels) (.inl (by decide)) ?_)
      fun _ _ => trivial
    exact of_length (links hS hinner hroom' _ ds rest Hd hrest)
  · have hreach : reach .value above (symbols Token.kind cs) = levels above :=
      if_neg fun h => hcs h.2
    refine nodeOutcome (p := fun _ => True) (hreach ▸ Nat.le.intro hroom) (.inl (by decide)) ?_
    refine isAt_bind (k := (ahead cs rest).headD .eof) rfl ?_
    have hne : ((ahead cs rest).headD .eof == TokenKind.variableValueRef) = false := by
      rw [← Bool.not_eq_true, beq_iff_eq]
      exact headD_operand H hcs
    rw [hne, if_neg Bool.false_ne_true]
    exact operand hS hinner H hcs hroom hrest

end Parses

/-- Every value is parsed, within the depth limit and past it. -/
theorem parsesValue {S : Script} (hS : S.Sound) {above : List NodeKind} {room : Nat}
    (habove : above.head? ≠ some .variableRefExpr)
    (hroom : levels above + room = S.limits.maxDepth) :
    ParsesValue S above (value S.limits (innerAt S.limits room)) :=
  Parses.value hS (Inner.satisfies_innerAt (Parses.value hS) (Parses.links hS) room) habove hroom

end Rule

end Blueprint
