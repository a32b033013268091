import Blueprint.Grammar.Value
import Blueprint.Proofs.Grammar.Form
import Blueprint.Proofs.Tree.Sketch

/-!
# Trees that follow the grammar

A forest is regular when the children of every node are what the grammar gives the node
(`NodeKind.whole`). Exceptions can be allowed for: pairs and the contents of arrays that are, in the
words of the parameter, bad. What a regular node looks like is read off its kind, one lemma for each.
-/

namespace Blueprint

namespace Form

/-- The symbols that occur in a pattern. -/
def atoms : Form → List Symbol
  | .zero | .epsilon => []
  | .char x => [x]
  | .plus p q | .comp p q => atoms p ++ atoms q
  | .star p => atoms p

theorem mem_atoms {p : Form} {w : List Symbol} (hw : w ∈ p.matches') : ∀ x ∈ w, x ∈ p.atoms := by
  induction p generalizing w with
  | zero => cases hw
  | epsilon =>
    cases hw
    exact fun _ h => nomatch h
  | char a =>
    cases hw
    exact fun _ h => h
  | plus p q hp hq =>
    intro x hx
    exact List.mem_append.2 (hw.imp (hp · x hx) (hq · x hx))
  | comp p q hp hq =>
    obtain ⟨u, hu, v, hv, rfl⟩ := hw
    intro x hx
    exact List.mem_append.2 ((List.mem_append.1 hx).imp (hp hu x) (hq hv x))
  | star p hp =>
    obtain ⟨ws, rfl, hws⟩ := Language.mem_kstar.1 hw
    intro x hx
    obtain ⟨v, hv, hx⟩ := List.mem_flatten.1 hx
    exact hp (hws v hv) x hx

end Form

open Form in
/-- The children of a node in a file without errors. -/
def NodeKind.whole : NodeKind → Form
  | .file => NodeKind.production .file * token .eof
  | .blueprint =>
    node .blueprintType * token .objectStart * optional (node .members) * token .objectEnd
  | .blueprintType => token .blueprintTypeName
  | .pair => node .fieldName * token .equals * node .value
  | .fieldName => token .fieldName
  | k => k.production

namespace Sketch

variable {α β : Type} (kind : α → TokenKind)

/-- What a sketch counts as among its siblings. -/
def symbol : Sketch α → Symbol
  | leaf a => .token (kind a)
  | node k _ => .node k

/-- The word of a forest. -/
def symbols (xs : List (Sketch α)) : List Symbol := xs.map (symbol kind)

@[simp] theorem symbols_append (xs ys : List (Sketch α)) :
    symbols kind (xs ++ ys) = symbols kind xs ++ symbols kind ys := List.map_append

theorem symbols_cons (x : Sketch α) (xs : List (Sketch α)) :
    symbols kind (x :: xs) = symbol kind x :: symbols kind xs := rfl

theorem symbols_eq_nil_iff {xs : List (Sketch α)} : symbols kind xs = [] ↔ xs = [] :=
  List.map_eq_nil_iff

theorem symbols_eq_token_cons_iff {xs : List (Sketch α)} {k : TokenKind} {w : List Symbol} :
    symbols kind xs = .token k :: w ↔
      ∃ a ys, xs = leaf a :: ys ∧ kind a = k ∧ symbols kind ys = w := by
  constructor
  · intro h
    cases xs with
    | nil => cases h
    | cons x ys =>
      cases x with
      | leaf a =>
        rw [symbols, List.map_cons, List.cons.injEq, symbol, Symbol.token.injEq] at h
        exact ⟨a, ys, rfl, h⟩
      | node => cases (List.cons.inj h).1
  · rintro ⟨a, ys, rfl, rfl, rfl⟩
    rfl

theorem symbols_eq_node_cons_iff {xs : List (Sketch α)} {k : NodeKind} {w : List Symbol} :
    symbols kind xs = .node k :: w ↔ ∃ cs ys, xs = node k cs :: ys ∧ symbols kind ys = w := by
  constructor
  · intro h
    cases xs with
    | nil => cases h
    | cons x ys =>
      cases x with
      | leaf => cases (List.cons.inj h).1
      | node k' cs =>
        rw [symbols, List.map_cons, List.cons.injEq, symbol, Symbol.node.injEq] at h
        obtain ⟨rfl, hw⟩ := h
        exact ⟨cs, ys, rfl, hw⟩
  · rintro ⟨cs, ys, rfl, rfl⟩
    rfl

/-- A list starts with an item. -/
theorem exists_node_of_list {xs : List (Sketch α)} {k : NodeKind}
    (h : symbols kind xs ∈ (Form.list (.node k)).matches') : ∃ cs ys, xs = node k cs :: ys := by
  rcases Form.mem_list_iff.1 h with h | ⟨_, -, h⟩
  · obtain ⟨cs, ys, rfl, -⟩ := (symbols_eq_node_cons_iff kind).1 h
    exact ⟨cs, ys, rfl⟩
  · obtain ⟨cs, ys, rfl, -⟩ := (symbols_eq_node_cons_iff kind).1 h
    exact ⟨cs, ys, rfl⟩

theorem symbols_mapAll (f : β → α) (xs : List (Sketch β)) :
    symbols kind (mapAll f xs) = symbols (kind ∘ f) xs := by
  induction xs with
  | nil => rfl
  | cons x xs ih =>
    rw [mapAll, symbols, List.map_cons, symbols, List.map_cons]
    refine congr (congrArg _ ?_) ih
    cases x <;> rfl

end Sketch

/-- Every node has a leaf below it. -/
inductive Sketch.Filled {α : Type} : List (Sketch α) → Prop
  | nil : Filled []
  | leaf {a : α} {xs : List (Sketch α)} : Filled xs → Filled (.leaf a :: xs)
  | node {k : NodeKind} {cs xs : List (Sketch α)} : leavesAll cs ≠ [] → Filled cs → Filled xs →
    Filled (.node k cs :: xs)

theorem Sketch.Filled.of_append {α : Type} {xs ys : List (Sketch α)} (H : Filled (xs ++ ys)) :
    Filled xs ∧ Filled ys := by
  induction xs with
  | nil => exact ⟨.nil, H⟩
  | cons x xs ih =>
    cases H with
    | leaf H => exact ⟨.leaf (ih H).1, (ih H).2⟩
    | node hne hc H => exact ⟨.node hne hc (ih H).1, (ih H).2⟩

theorem Sketch.Filled.append {α : Type} {xs ys : List (Sketch α)} (H : Filled xs)
    (H' : Filled ys) : Filled (xs ++ ys) := by
  induction H with
  | nil => exact H'
  | leaf _ ih => exact .leaf ih
  | node hne hc _ _ ih => exact .node hne hc ih

theorem Sketch.Filled.map_leaf {α : Type} (as : List α) : Filled (as.map .leaf) := by
  induction as with
  | nil => exact .nil
  | cons a as ih => exact .leaf ih

theorem Sketch.Filled.of_mapAll {α β : Type} {f : α → β} {xs : List (Sketch α)}
    (H : Filled (mapAll f xs)) : Filled xs := by
  induction xs using forest_induction with
  | nil => exact .nil
  | leaf a xs ih =>
    cases H with | leaf H =>
    exact .leaf (ih H)
  | node k cs xs ihc ih =>
    cases H with | node hne hc H =>
    refine .node (fun hnil => hne ?_) (ihc hc) (ih H)
    rw [leavesAll_mapAll, hnil, List.map_nil]

/-- The kinds of nodes that exceptions are allowed for. -/
def NodeKind.frail : List NodeKind := [.pair, .elements]

open Sketch in
/-- Every node has the children that the grammar gives it, but for bad pairs and bad contents of
arrays. -/
inductive Regular {α : Type} (kind : α → TokenKind) (bad : Sketch α → Prop) :
    List (Sketch α) → Prop
  | nil : Regular kind bad []
  | leaf {a : α} {xs : List (Sketch α)} : Regular kind bad xs → Regular kind bad (.leaf a :: xs)
  | node {k : NodeKind} {cs xs : List (Sketch α)} : symbols kind cs ∈ k.whole.matches' →
    Regular kind bad cs → Regular kind bad xs → Regular kind bad (.node k cs :: xs)
  | bad {k : NodeKind} {cs xs : List (Sketch α)} : k ∈ NodeKind.frail → bad (.node k cs) →
    Regular kind bad xs → Regular kind bad (.node k cs :: xs)

theorem Element.symbols_sketches (es : List Element) :
    Sketch.symbols Token.kind (sketches es) = symbols es := by
  induction es with
  | nil => rfl
  | cons e es ih =>
    rw [sketches, Sketch.symbols_append, ih, ← List.singleton_append, symbols_append]
    refine congrArg (· ++ symbols es) ?_
    cases e with
    | node => rfl
    | token t =>
      cases h : t.isTrivia with
      | true => simp [sketch, symbols, symbol?, h, Sketch.symbols]
      | false => simp [sketch, symbols, symbol?, h, Sketch.symbols, Sketch.symbol]

namespace Regular

open Sketch

variable {α β : Type} {kind : α → TokenKind} {bad : Sketch α → Prop}
  {xs ys cs : List (Sketch α)} {k : NodeKind}

theorem append (H : Regular kind bad xs) (H' : Regular kind bad ys) :
    Regular kind bad (xs ++ ys) := by
  induction H with
  | nil => exact H'
  | leaf _ ih => exact .leaf ih
  | node hw hc _ _ ih => exact .node hw hc ih
  | bad hk hb _ ih => exact .bad hk hb ih

theorem mono {bad' : Sketch α → Prop} (H : Regular kind bad xs)
    (h : ∀ x, bad x → bad' x) : Regular kind bad' xs := by
  induction H with
  | nil => exact .nil
  | leaf _ ih => exact .leaf ih
  | node hw _ _ ihc ih => exact .node hw ihc ih
  | bad hk hb _ ih => exact .bad hk (h _ hb) ih

theorem left (H : Regular kind bad (xs ++ ys)) : Regular kind bad xs := by
  induction xs with
  | nil => exact .nil
  | cons x xs ih =>
    cases H with
    | leaf H => exact .leaf (ih H)
    | node hw hc H => exact .node hw hc (ih H)
    | bad hk hb H => exact .bad hk hb (ih H)

theorem right (H : Regular kind bad (xs ++ ys)) : Regular kind bad ys := by
  induction xs with
  | nil => exact H
  | cons x xs ih =>
    cases H with
    | leaf H => exact ih H
    | node _ _ H => exact ih H
    | bad _ _ H => exact ih H

theorem of_leaf {a : α} (H : Regular kind bad (.leaf a :: xs)) : Regular kind bad xs := by
  cases H with
  | leaf H => exact H

theorem head {x : Sketch α} (H : Regular kind bad (x :: xs)) : Regular kind bad [x] := by
  rw [← List.singleton_append] at H
  exact H.left

theorem tail {x : Sketch α} (H : Regular kind bad (x :: xs)) : Regular kind bad xs := by
  rw [← List.singleton_append] at H
  exact H.right

/-- What stands at the leaves does not matter beyond its kind. -/
theorem of_mapAll {f : β → α} {bad' : Sketch β → Prop} {xs : List (Sketch β)}
    (H : Regular kind (fun _ => False) (mapAll f xs)) : Regular (kind ∘ f) bad' xs := by
  induction xs using forest_induction with
  | nil => exact .nil
  | leaf a xs ih => exact .leaf (ih H.of_leaf)
  | node k cs xs ihc ihx =>
    cases H with
    | node hw hc H => exact .node (symbols_mapAll kind f cs ▸ hw) (ihc hc) (ihx H)
    | bad _ hb => exact hb.elim

theorem mapAll {f : β → α} {xs : List (Sketch β)}
    (H : Regular (kind ∘ f) (fun _ => False) xs) : Regular kind bad (mapAll f xs) := by
  induction H with
  | nil => exact .nil
  | leaf _ ih => exact .leaf ih
  | node hw _ _ ihc ih => exact .node (symbols_mapAll kind f _ ▸ hw) ihc ih
  | bad _ hb => exact hb.elim

theorem map_leaf (as : List α) : Regular kind bad (as.map .leaf) := by
  induction as with
  | nil => exact .nil
  | cons a as ih => exact .leaf ih

/-- The grammar gives no node an empty list of children. -/
theorem not_nil_of_whole (h : symbols kind cs ∈ k.whole.matches') : cs ≠ [] := by
  rintro rfl
  have hempty : k.whole.matchEpsilon = true := k.whole.rmatch_iff_matches' [] |>.2 h
  cases k with
  | _ => cases hempty

theorem filled (H : Regular kind bad xs) (hbad : ∀ x, bad x → Filled [x]) :
    Filled xs := by
  induction H with
  | nil => exact .nil
  | leaf _ ih => exact .leaf ih
  | @node k cs xs hw _ _ ihc ih =>
    refine .node (fun hnil => ?_) ihc ih
    cases ihc with
    | nil => exact not_nil_of_whole hw rfl
    | leaf => cases hnil
    | node hne => exact hne (List.append_eq_nil_iff.1 hnil).1
  | bad _ hb _ ih => exact (hbad _ hb).append ih

/-! ### What regular nodes look like -/

/-- A node of another kind has the children that the grammar gives it. -/
theorem of_node (H : Regular kind bad [.node k cs]) (hk : k ∉ NodeKind.frail) :
    symbols kind cs ∈ k.whole.matches' ∧ Regular kind bad cs := by
  cases H with
  | node hw hc _ => exact ⟨hw, hc⟩
  | bad hk' => exact absurd hk' hk

/-- The root holds items and the end of the file. -/
theorem file (H : Regular kind bad [.node .file cs]) : ∃ xs e, cs = xs ++ [.leaf e] ∧
    Regular kind bad xs ∧ symbols kind xs ∈ NodeKind.file.production.matches' := by
  obtain ⟨⟨w, hw, _, rfl, h⟩, hcs⟩ := H.of_node (by decide)
  obtain ⟨xs, ys, rfl, rfl, hys⟩ := List.map_eq_append_iff.1 h.symm
  obtain ⟨e, zs, rfl, he, hzs⟩ := (symbols_eq_token_cons_iff kind).1 hys
  cases (symbols_eq_nil_iff kind).1 hzs
  exact ⟨xs, e, rfl, hcs.left, hw⟩

theorem stringExpr (H : Regular kind bad [.node .stringExpr cs]) :
    ∃ a ys, cs = .leaf a :: ys ∧ kind a = .string ∧
      symbols kind ys ∈ (Form.many (.token .plus * .token .string)).matches' := by
  obtain ⟨⟨_, rfl, w, hw, h⟩, -⟩ := H.of_node (by decide)
  obtain ⟨a, ys, rfl, ha, hys⟩ := (symbols_eq_token_cons_iff kind).1 h.symm
  exact ⟨a, ys, rfl, ha, hys ▸ hw⟩

theorem arrayElement (H : Regular kind bad [.node .arrayElement cs]) :
    ∃ a, cs = [.leaf a] ∧ kind a ∈ elementKinds := by
  have h := (H.of_node (by decide)).1
  have hword : ∃ k ∈ elementKinds, symbols kind cs = [.token k] := by
    rcases h with (((h | h) | h) | h) | h
    · exact ⟨.string, by decide, h⟩
    · exact ⟨.bool, by decide, h⟩
    · exact ⟨.number, by decide, h⟩
    · exact ⟨.variableName, by decide, h⟩
    · exact ⟨.link, by decide, h⟩
  obtain ⟨k, hk, hcs⟩ := hword
  obtain ⟨a, ys, rfl, rfl, hys⟩ := (symbols_eq_token_cons_iff kind).1 hcs
  cases (symbols_eq_nil_iff kind).1 hys
  exact ⟨a, rfl, hk⟩

theorem arrayExpr (H : Regular kind bad [.node .arrayExpr cs]) :
    ∃ as ys, cs = .node .array as :: ys ∧ Regular kind bad [.node .array as] ∧
      Regular kind bad ys ∧ symbols kind ys ∈ (Form.many (.token .plus * .node .array)).matches' := by
  obtain ⟨⟨_, rfl, w, hw, h⟩, hc⟩ := H.of_node (by decide)
  obtain ⟨as, ys, rfl, hys⟩ := (symbols_eq_node_cons_iff kind).1 h.symm
  exact ⟨as, ys, rfl, hc.head, hc.tail, hys ▸ hw⟩

/-- What stands between an opening and a closing token: nothing, or one node. -/
theorem enclosed {opening closing : TokenKind} {inside : NodeKind} {m : List Symbol}
    (hm : m ∈ (Form.optional (.node inside)).matches') (hc : Regular kind bad cs)
    (h : symbols kind cs = .token opening :: (m ++ [.token closing])) :
    ∃ a ms b, cs = .leaf a :: (ms ++ [.leaf b]) ∧ kind a = opening ∧ kind b = closing ∧
      (ms = [] ∨ ∃ is, ms = [.node inside is] ∧ Regular kind bad [.node inside is]) := by
  obtain ⟨a, ys, rfl, ha, hys⟩ := (symbols_eq_token_cons_iff kind).1 h
  have hy := hc.of_leaf
  rcases Form.mem_optional.1 hm with rfl | rfl
  · obtain ⟨b, zs, rfl, hb, hzs⟩ := (symbols_eq_token_cons_iff kind).1 hys
    cases (symbols_eq_nil_iff kind).1 hzs
    exact ⟨a, [], b, rfl, ha, hb, .inl rfl⟩
  · obtain ⟨is, zs, rfl, hzs⟩ := (symbols_eq_node_cons_iff kind).1 hys
    obtain ⟨b, us, rfl, hb, hus⟩ := (symbols_eq_token_cons_iff kind).1 hzs
    cases (symbols_eq_nil_iff kind).1 hus
    exact ⟨a, [.node inside is], b, rfl, ha, hb, .inr ⟨is, rfl, hy.head⟩⟩

theorem array (H : Regular kind bad [.node .array cs]) :
    ∃ a ms b, cs = .leaf a :: (ms ++ [.leaf b]) ∧ kind a = .arrayStart ∧ kind b = .arrayEnd ∧
      (ms = [] ∨ ∃ is, ms = [.node .elements is] ∧ Regular kind bad [.node .elements is]) := by
  obtain ⟨⟨_, ⟨_, rfl, m, hm, rfl⟩, _, rfl, h⟩, hc⟩ := H.of_node (by decide)
  exact enclosed hm hc h.symm

theorem object (H : Regular kind bad [.node .object cs]) :
    ∃ a ms b, cs = .leaf a :: (ms ++ [.leaf b]) ∧ kind a = .objectStart ∧ kind b = .objectEnd ∧
      (ms = [] ∨ ∃ is, ms = [.node .members is] ∧ Regular kind bad [.node .members is]) := by
  obtain ⟨⟨_, ⟨_, rfl, m, hm, rfl⟩, _, rfl, h⟩, hc⟩ := H.of_node (by decide)
  exact enclosed hm hc h.symm

/-- A node around a name. -/
theorem name {token : TokenKind} (H : Regular kind bad [.node k cs]) (hk : k ∉ NodeKind.frail)
    (hwhole : k.whole = .token token) : ∃ a, cs = [.leaf a] ∧ kind a = token := by
  have h := (H.of_node hk).1
  rw [hwhole] at h
  obtain ⟨a, ys, rfl, ha, hys⟩ := (symbols_eq_token_cons_iff kind).1 h
  cases (symbols_eq_nil_iff kind).1 hys
  exact ⟨a, rfl, ha⟩

/-- The contents of an array. -/
theorem elements (H : Regular kind bad [.node .elements cs]) : bad (.node .elements cs) ∨
    symbols kind cs ∈ (Form.list (.node .arrayElement)).matches' ∧ Regular kind bad cs := by
  cases H with
  | bad _ hb => exact .inl hb
  | node hw hc _ => exact .inr ⟨hw, hc⟩

theorem pair (H : Regular kind bad [.node .pair cs]) : bad (.node .pair cs) ∨
    ∃ a b vs, cs = [.node .fieldName [.leaf a], .leaf b, .node .value vs] ∧ kind a = .fieldName ∧
      kind b = .equals ∧ Regular kind bad [.node .value vs] := by
  cases H with
  | bad _ hb => exact .inl hb
  | node hw hc _ =>
    obtain ⟨_, ⟨_, rfl, _, rfl, rfl⟩, _, rfl, h⟩ := hw
    obtain ⟨ns, ys, rfl, hys⟩ := (symbols_eq_node_cons_iff kind).1 h.symm
    obtain ⟨b, zs, rfl, hb, hzs⟩ := (symbols_eq_token_cons_iff kind).1 hys
    obtain ⟨vs, us, rfl, hus⟩ := (symbols_eq_node_cons_iff kind).1 hzs
    cases (symbols_eq_nil_iff kind).1 hus
    obtain ⟨a, rfl, ha⟩ := hc.head.name (by decide) rfl
    exact .inr ⟨a, b, vs, rfl, ha, hb, hc.tail.of_leaf⟩

/-- The kinds of token that are a value on their own. -/
theorem value (H : Regular kind bad [.node .value cs]) :
    (∃ a, cs = [.leaf a] ∧ (kind a = .bool ∨ kind a = .number)) ∨
      ∃ k ds, cs = [.node k ds] ∧ Regular kind bad [.node k ds] ∧
        (k = .stringExpr ∨ k = .arrayExpr ∨ k = .object ∨ k = .variableRefExpr) := by
  obtain ⟨h, hc⟩ := H.of_node (by decide)
  have hnode : ∀ {k}, symbols kind cs = [.node k] → ∃ ds, cs = [.node k ds] := by
    intro k hk
    obtain ⟨ds, ys, rfl, hys⟩ := (symbols_eq_node_cons_iff kind).1 hk
    cases (symbols_eq_nil_iff kind).1 hys
    exact ⟨ds, rfl⟩
  have hleaf : ∀ {k}, symbols kind cs = [.token k] → ∃ a, cs = [.leaf a] ∧ kind a = k := by
    intro k hk
    obtain ⟨a, ys, rfl, ha, hys⟩ := (symbols_eq_token_cons_iff kind).1 hk
    cases (symbols_eq_nil_iff kind).1 hys
    exact ⟨a, rfl, ha⟩
  rcases h with ((((h | h) | h) | h) | h) | h
  · obtain ⟨ds, rfl⟩ := hnode h
    exact .inr ⟨_, ds, rfl, hc, .inl rfl⟩
  · obtain ⟨ds, rfl⟩ := hnode h
    exact .inr ⟨_, ds, rfl, hc, .inr (.inl rfl)⟩
  · obtain ⟨ds, rfl⟩ := hnode h
    exact .inr ⟨_, ds, rfl, hc, .inr (.inr (.inl rfl))⟩
  · obtain ⟨a, rfl, ha⟩ := hleaf h
    exact .inl ⟨a, rfl, .inl ha⟩
  · obtain ⟨a, rfl, ha⟩ := hleaf h
    exact .inl ⟨a, rfl, .inr ha⟩
  · obtain ⟨ds, rfl⟩ := hnode h
    exact .inr ⟨_, ds, rfl, hc, .inr (.inr (.inr rfl))⟩

theorem variableRefExpr (H : Regular kind bad [.node .variableRefExpr cs]) :
    ∃ a, kind a = .variableValueRef ∧ (cs = [.leaf a] ∨
      ∃ b vs, cs = [.leaf a, .leaf b, .node .value vs] ∧ kind b = .plus ∧
        Regular kind bad [.node .value vs]) := by
  obtain ⟨⟨_, rfl, m, hm, h⟩, hc⟩ := H.of_node (by decide)
  obtain ⟨a, ys, rfl, ha, hys⟩ := (symbols_eq_token_cons_iff kind).1 h.symm
  refine ⟨a, ha, ?_⟩
  rcases Form.mem_optional.1 hm with rfl | ⟨_, rfl, _, rfl, rfl⟩
  · cases (symbols_eq_nil_iff kind).1 hys
    exact .inl rfl
  · obtain ⟨b, zs, rfl, hb, hzs⟩ := (symbols_eq_token_cons_iff kind).1 hys
    obtain ⟨vs, us, rfl, hus⟩ := (symbols_eq_node_cons_iff kind).1 hzs
    cases (symbols_eq_nil_iff kind).1 hus
    exact .inr ⟨b, vs, rfl, hb, hc.of_leaf.of_leaf⟩

theorem blueprint (H : Regular kind bad [.node .blueprint cs]) :
    ∃ n a ms b, cs = .node .blueprintType [.leaf n] :: .leaf a :: (ms ++ [.leaf b]) ∧
      kind n = .blueprintTypeName ∧ kind a = .objectStart ∧ kind b = .objectEnd ∧
      (ms = [] ∨ ∃ is, ms = [.node .members is] ∧ Regular kind bad [.node .members is]) := by
  obtain ⟨⟨_, ⟨_, ⟨_, rfl, _, rfl, rfl⟩, m, hm, rfl⟩, _, rfl, h⟩, hc⟩ := H.of_node (by decide)
  obtain ⟨ns, ys, rfl, hys⟩ := (symbols_eq_node_cons_iff kind).1 h.symm
  obtain ⟨n, rfl, hn⟩ := hc.head.name (by decide) rfl
  obtain ⟨a, ms, b, rfl, ha, hb, hms⟩ := enclosed hm hc.tail hys
  exact ⟨n, a, ms, b, rfl, hn, ha, hb, hms⟩

theorem variableDef (H : Regular kind bad [.node .variable cs]) :
    ∃ a b vs, cs = [.leaf a, .leaf b, .node .value vs] ∧ kind a = .variableName ∧
      (kind b = .equals ∨ kind b = .plusEquals) ∧ Regular kind bad [.node .value vs] := by
  obtain ⟨⟨_, ⟨_, rfl, m, hm, rfl⟩, _, rfl, h⟩, hc⟩ := H.of_node (by decide)
  obtain ⟨a, ys, rfl, ha, hys⟩ := (symbols_eq_token_cons_iff kind).1 h.symm
  have hop : ∃ b zs, ys = .leaf b :: zs ∧ (kind b = .equals ∨ kind b = .plusEquals) ∧
      symbols kind zs = [.node .value] := by
    rcases hm with rfl | rfl
    · obtain ⟨b, zs, rfl, hb, hzs⟩ := (symbols_eq_token_cons_iff kind).1 hys
      exact ⟨b, zs, rfl, .inl hb, hzs⟩
    · obtain ⟨b, zs, rfl, hb, hzs⟩ := (symbols_eq_token_cons_iff kind).1 hys
      exact ⟨b, zs, rfl, .inr hb, hzs⟩
  obtain ⟨b, zs, rfl, hb, hzs⟩ := hop
  obtain ⟨vs, us, rfl, hus⟩ := (symbols_eq_node_cons_iff kind).1 hzs
  cases (symbols_eq_nil_iff kind).1 hus
  exact ⟨a, b, vs, rfl, ha, hb, hc.of_leaf.of_leaf⟩

end Regular

end Blueprint
