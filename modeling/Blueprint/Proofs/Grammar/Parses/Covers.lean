import Blueprint.Proofs.Grammar.Parses.Renders
import Blueprint.Proofs.Tree.Hole

/-!
# Other entries in a hole

The entries of a body fill a hole, and others take their place, which the grammar need not know. If
these are rendered where they stand, then so is the tree with them in the hole (`Covers.fill`): every
node around the hole is built by its own rule, and what stands beside the hole is parsed as before.
-/

namespace Blueprint

open NodeKind Form Token Sketch

/-! ### Nodes around entries -/

/-- The kinds of nodes that entries can stand in, at any depth. -/
def NodeKind.carriers : List NodeKind :=
  [.file, .blueprint, .variable, .members, .pair, .value, .object, .variableRefExpr]

/-- A node that entries can stand in. -/
def Sketch.Carries {α : Type} : Sketch α → Prop
  | .node k _ => k ∈ NodeKind.carriers
  | .leaf _ => False

/-- Other nodes hold no node that entries can stand in. -/
theorem NodeKind.carrier_of_child {j k : NodeKind} (hj : j ∈ carriers)
    (h : .node j ∈ k.whole.atoms) : k ∈ carriers := by
  have htable : ∀ j ∈ carriers, .node j ∈ k.whole.atoms → k ∈ carriers := by
    cases k <;> decide
  exact htable j hj h

namespace Within

variable {α : Type} {kind : α → TokenKind} {depth : Nat} {bad : Sketch α → Prop}
  {above : List NodeKind} {k : NodeKind} {cs : List (Sketch α)}

/-- A node that is not bad has the children that the grammar gives it. -/
theorem whole (Hw : Within kind depth bad above [.node k cs] 0) (H : Regular kind bad [.node k cs]) :
    symbols kind cs ∈ k.whole.matches' ∧ Regular kind bad cs := by
  cases H with
  | node hw hc _ => exact ⟨hw, hc⟩
  | bad hk hb => exact (Hw.good_of_node.elim (· hk) (· hb)).elim

/-- What stands on both sides of one tree of a forest. -/
theorem sides {left right : List (Sketch α)} {x : Sketch α}
    (Hw : Within kind depth bad above (left ++ x :: right) 0) :
    Within kind depth bad above left 0 ∧ Within kind depth bad above [x] 0 ∧
      Within kind depth bad above right 0 := by
  obtain ⟨hleft, hright⟩ := Hw.of_append
  rw [← List.singleton_append] at hright
  exact ⟨hleft, hright.of_append⟩

end Within

/-- What the node around `x` looks at is the same in `y`: the symbol, the first token, and of a value
what kind of value it is. -/
structure Sketch.Resembles (x y : Sketch Token) : Prop where
  carries : x.Carries
  symbol_eq : symbol Token.kind x = symbol Token.kind y
  value : ∀ {cs ds}, x = .node .value cs → y = .node .value ds →
    symbols Token.kind cs = symbols Token.kind ds
  head : ∃ t ∈ x.leaves.head?, ∃ u ∈ y.leaves.head?, t.kind = u.kind

namespace Sketch.Resembles

variable {x y : Sketch Token} {k : NodeKind} {left right us cs : List (Sketch Token)}

theorem exists_node (R : Resembles x y) (hx : x = .node k cs) : ∃ ds, y = .node k ds := by
  have hsymbol := R.symbol_eq
  rw [hx] at hsymbol
  cases y with
  | leaf => cases hsymbol
  | node j ds =>
    cases hsymbol
    exact ⟨ds, rfl⟩

/-- The child is found among siblings that entries cannot stand in. -/
theorem exists_child (us vs : List (Sketch Token)) (R : Resembles x y)
    (h : left ++ x :: right = us ++ .node k cs :: vs) (hus : ∀ u ∈ us, ¬u.Carries) (hvs : ∀ v ∈ vs, ¬v.Carries) :
    left = us ∧ right = vs ∧ x = .node k cs ∧ ∃ ds, y = .node k ds := by
  obtain ⟨rfl, hx, rfl⟩ := (List.append_cons_inj_of_notMem (fun hm => hus _ hm R.carries)
    (fun hm => hvs _ hm R.carries)).1 h.symm
  exact ⟨rfl, rfl, hx.symm, R.exists_node hx.symm⟩

theorem exists_carries (R : Resembles x y) (h : left ++ x :: right = us) : ∃ u ∈ us, u.Carries :=
  ⟨x, h ▸ List.mem_append_right _ (.head _), R.carries⟩

theorem leaves_ne_nil (R : Resembles x y) : y.leaves ≠ [] := by
  obtain ⟨-, -, u, hu, -⟩ := R.head
  exact List.ne_nil_of_mem (List.mem_of_mem_head? hu)

/-- The current token is the same. -/
theorem headD_eq (R : Resembles x y) (left right : List (Sketch Token)) (rest : List Token) :
    (ahead (left ++ x :: right) rest).headD .eof = (ahead (left ++ y :: right) rest).headD .eof := by
  obtain ⟨t, ht, u, hu, hkind⟩ := R.head
  obtain ⟨ts, hts⟩ := List.head?_eq_some_iff.1 ht
  obtain ⟨us, hus⟩ := List.head?_eq_some_iff.1 hu
  simp only [ahead, leavesAll_append, leavesAll, hts, hus]
  cases leavesAll left with
  | nil => exact hkind
  | cons => rfl

theorem symbols_eq (R : Resembles x y) (left right : List (Sketch Token)) :
    symbols Token.kind (left ++ x :: right) = symbols Token.kind (left ++ y :: right) := by
  rw [symbols_append, symbols_cons, R.symbol_eq, ← symbols_cons, ← symbols_append]

/-- So do the nodes around them. -/
theorem node {S : Script} {above : List NodeKind} (R : Resembles x y)
    (H : Regular Token.kind S.bad [.node k (left ++ x :: right)])
    (Hw : Within Token.kind S.limits.maxDepth S.bad above [.node k (left ++ x :: right)] 0) :
    Resembles (.node k (left ++ x :: right)) (.node k (left ++ y :: right)) := by
  refine ⟨?_, rfl, ?_, ?_⟩
  · have hmem : symbol Token.kind x ∈ k.whole.atoms :=
      mem_atoms (Hw.whole H).1 _ (List.mem_map_of_mem (List.mem_append_right _ (.head _)))
    have hcarries := R.carries
    cases x with
    | leaf => cases hcarries
    | node j cs => exact carrier_of_child hcarries hmem
  · rintro _ _ ⟨⟩ ⟨⟩
    exact R.symbols_eq left right
  · obtain ⟨t, ht, u, hu, hkind⟩ := R.head
    simp only [leaves, leavesAll_append, leavesAll, List.head?_append, Option.mem_def] at ht hu ⊢
    cases leavesAll left with
    | nil => exact ⟨t, by rw [ht]; rfl, u, by rw [hu]; rfl, hkind⟩
    | cons a as => exact ⟨a, rfl, a, rfl, rfl⟩

end Sketch.Resembles

theorem ends_iff {ks : List TokenKind} : Ends ks ↔ ks.headD .eof ≠ .plus := by
  cases ks with
  | nil => exact iff_of_true nofun nofun
  | cons k ks => exact not_congr Option.some_inj

/-- Items on both sides of a place in a file. -/
theorem file_of_append {v w : List Symbol} (h : v ++ w ∈ NodeKind.file.production.matches') :
    v ∈ NodeKind.file.production.matches' ∧ w ∈ NodeKind.file.production.matches' := by
  induction v with
  | nil => exact ⟨nil_mem_many, h⟩
  | cons x v ih =>
    rcases mem_many_iff.1 h with h | ⟨u, hu, us, hus, h⟩
    · cases h
    · obtain ⟨y, rfl⟩ : ∃ y, u = [y] := by
        rcases hu with rfl | rfl <;> exact ⟨_, rfl⟩
      obtain ⟨rfl, rfl⟩ := List.cons.inj h
      exact ⟨append_mem_many hu (ih hus).1, (ih hus).2⟩

/-! ### What is rendered -/

open Rule

variable {S : Script} {q : List SyntaxError → Prop}

/-- Below `above` an object is rendered. -/
def RendersObject (S : Script) (q : List SyntaxError → Prop) (above : List NodeKind)
    (cs : List (Sketch Token)) : Prop :=
  (∀ rest, (ahead cs rest).headD .eof = .objectStart) ∧
    ∀ room rest, levels above + room = S.limits.maxDepth →
      (Rule.object S.limits (innerAt S.limits room)).Renders S [.node .object cs] rest
        (fun _ => True) q

/-- Below `above` a chain of references is rendered. -/
def RendersLinks (S : Script) (q : List SyntaxError → Prop) (above : List NodeKind)
    (cs : List (Sketch Token)) : Prop :=
  (∀ rest, (ahead cs rest).headD .eof = .variableValueRef) ∧
    ∀ room budget rest, levels (.variableRefExpr :: above) + room = S.limits.maxDepth →
      Ends (rest.map Token.kind) → (leavesAll cs ++ rest).length ≤ budget →
      (Rule.links S.limits (innerAt S.limits room) budget).Renders S cs rest (fun _ => True) q

/-- Below `above` the rule for a node that entries can stand in renders it, and its errors satisfy
`q`. -/
def Covers (S : Script) (q : List SyntaxError → Prop) (above : List NodeKind) :
    Sketch Token → Prop
  | .node .object cs => RendersObject S q above cs
  | .node .variableRefExpr cs => RendersLinks S q above cs
  | .node .value cs =>
    (∃ ds, cs = [.node .object ds] ∧ RendersObject S q (.value :: above) ds) ∨
      ∃ ds, cs = [.node .variableRefExpr ds] ∧ RendersLinks S q (.value :: above) ds
  | .node .pair cs => ∀ room b rest, levels (.pair :: above) + room = S.limits.maxDepth →
    b.kind ∈ [TokenKind.separator, .objectEnd] →
    (Rule.pair S.limits (Rule.value S.limits (innerAt S.limits room))).Renders S [.node .pair cs]
      (b :: rest) (fun _ => True) q
  | .node .members cs => ∀ room b rest,
    levels (.pair :: .members :: above) + room = S.limits.maxDepth → b.kind = .objectEnd →
    (Rule.members S.limits (Rule.value S.limits (innerAt S.limits room))).Renders S
      [.node .members cs] (b :: rest) (fun _ => True) q
  | .node .blueprint cs => above = [.file] → ∀ rest,
    (Rule.item S.limits S.limits.maxDepth).Renders S [.node .blueprint cs] rest
      (·.isMatch = true) q
  | .node .variable cs => above = [.file] → ∀ rest, Ends (rest.map Token.kind) →
    (Rule.item S.limits S.limits.maxDepth).Renders S [.node .variable cs] rest
      (·.isMatch = true) q
  | .node .file cs => above = [] → ∃ xs e, cs = xs ++ [.leaf e] ∧
    (Rule.contents S.limits S.limits.maxDepth S.limits.maxIterations).Renders S xs []
      (fun _ => True) q
  | _ => True

namespace Covers

variable {above : List NodeKind} {left right cs : List (Sketch Token)} {rest : List Token}
  {room : Nat} {x y : Sketch Token}

/-- The rule for values renders one. -/
theorem renders_value (h : Covers S q above (.node .value cs))
    (habove : above.head? ≠ some .variableRefExpr) (hroom : levels above + room = S.limits.maxDepth)
    (hrest : Ends (rest.map Token.kind)) :
    (Rule.value S.limits (innerAt S.limits room)).Renders S [.node .value cs] rest
      (·.isMatch = true) q := by
  rcases h with ⟨ds, rfl, hstart, h⟩ | ⟨ds, rfl, hstart, h⟩
  · exact Renders.value_object (hstart rest) (h room rest hroom)
  · refine Renders.value_links (hstart rest) fun hlen => h room _ rest ?_ hrest hlen
    rw [levels_variableRefExpr habove]
    exact hroom

section

variable (R : x.Resembles y)
include R

theorem value (hy : Covers S q (.value :: above) y)
    (H : Regular Token.kind S.bad [.node .value (left ++ x :: right)]) :
    Covers S q above (.node .value (left ++ y :: right)) := by
  rcases H.value with ⟨a, he, -⟩ | ⟨j, ds, he, -, hj⟩
  · exact absurd (R.exists_carries he) (by simp [Sketch.Carries])
  · obtain ⟨rfl, rfl, rfl, cs, rfl⟩ := R.exists_child [] [] he nofun nofun
    have hcarries := R.carries
    rcases hj with rfl | rfl | rfl | rfl
    · exact absurd hcarries (by simp [Sketch.Carries, carriers])
    · exact absurd hcarries (by simp [Sketch.Carries, carriers])
    · exact .inl ⟨cs, rfl, hy⟩
    · exact .inr ⟨cs, rfl, hy⟩

theorem variableDef (hy : Covers S q (.variable :: above) y)
    (H : Regular Token.kind S.bad [.node .variable (left ++ x :: right)]) :
    Covers S q above (.node .variable (left ++ y :: right)) := by
  obtain ⟨a, c, vs, he, ha, hc, -⟩ := H.variableDef
  obtain ⟨rfl, rfl, -, ws, rfl⟩ := R.exists_child [.leaf a, .leaf c] [] he
    (by simp [Sketch.Carries]) nofun
  rintro rfl rest hrest
  exact Renders.item_variableDef ha hc (renders_value hy nofun (Nat.zero_add _) hrest)

theorem pair (hy : Covers S q (.pair :: above) y)
    (H : Regular Token.kind S.bad [.node .pair (left ++ x :: right)])
    (Hw : Within Token.kind S.limits.maxDepth S.bad above [.node .pair (left ++ x :: right)] 0) :
    Covers S q above (.node .pair (left ++ y :: right)) := by
  have hgood := Hw.good_of_node.resolve_left (· (by decide))
  obtain ⟨a, c, vs, he, ha, hc, -⟩ := H.pair.resolve_left hgood
  obtain ⟨rfl, rfl, -, ws, rfl⟩ := R.exists_child [.node .fieldName [.leaf a], .leaf c] [] he
    (by simp [Sketch.Carries, carriers]) nofun
  intro room b rest hroom hb
  have hends : Ends ((b :: rest).map Token.kind) := ends_cons fun h => absurd (h ▸ hb) (by decide)
  exact Renders.pair ha hc (renders_value hy nofun hroom hends)

theorem variableRefExpr (hy : Covers S q (.variableRefExpr :: above) y)
    (H : Regular Token.kind S.bad [.node .variableRefExpr (left ++ x :: right)])
    (Hw : Within Token.kind S.limits.maxDepth S.bad above
      [.node .variableRefExpr (left ++ x :: right)] 0) :
    Covers S q above (.node .variableRefExpr (left ++ y :: right)) := by
  obtain ⟨a, ha, he | ⟨c, vs, he, hc, -⟩⟩ := H.variableRefExpr
  · exact absurd (R.exists_carries he) (by simp [Sketch.Carries])
  obtain ⟨rfl, rfl, rfl, ws, rfl⟩ := R.exists_child [.leaf a, .leaf c] [] he
    (by simp [Sketch.Carries]) nofun
  have hsymbols : symbols Token.kind vs = symbols Token.kind ws := R.value rfl rfl
  refine ⟨fun rest => ha, fun room budget rest hroom hrest hbudget => ?_⟩
  cases budget with
  | zero => cases hbudget
  | succ budget =>
    rcases hy with ⟨ds, rfl, hstart, h⟩ | ⟨ds, rfl, hstart, h⟩
    · refine Renders.links hc (k := .objectStart) ?_ (by decide) (.inl ⟨nofun, ?_⟩)
      · rw [ahead, leavesAll_node, leavesAll_node]
        exact hstart rest
      · exact Renders.operand_object (hstart rest) (h room rest hroom)
    · -- a reference in the tail lies one level deeper
      have hdeep := Hw.of_node.2.1.sides.2.1
      have hreach := hdeep.of_node.1
      rw [reach, if_pos ⟨rfl, hsymbols⟩] at hreach
      have hlevels : levels (.variableRefExpr :: .value :: .variableRefExpr :: above) =
          levels (.variableRefExpr :: above) + 1 := rfl
      cases room with
      | zero => omega
      | succ room =>
        refine Renders.links hc (k := .variableValueRef) ?_ (by decide)
          (.inr ⟨rfl, _, rfl, ds, rfl, ?_⟩)
        · rw [ahead, leavesAll_node, leavesAll_node]
          exact hstart rest
        · refine h room budget rest (levels_cons_add rfl hroom) hrest ?_
          simp only [leavesAll, leaves, List.length_append, List.length_cons, List.append_nil,
            List.cons_append, List.nil_append] at hbudget ⊢
          omega

theorem file (hy : Covers S q (.file :: above) y)
    (H : Regular Token.kind S.bad [.node .file (left ++ x :: right)])
    (Hw : Within Token.kind S.limits.maxDepth S.bad above [.node .file (left ++ x :: right)] 0)
    (hS : S.Sound) : Covers S q above (.node .file (left ++ y :: right)) := by
  obtain ⟨xs, e, he, Hxs, hxs⟩ := H.file
  obtain ⟨right, z, rfl⟩ := (List.eq_nil_or_concat' right).resolve_left <| by
    rintro rfl
    obtain ⟨-, he⟩ := List.append_inj' he rfl
    have hcarries := R.carries
    rw [(List.cons.inj he).1] at hcarries
    exact hcarries
  rw [← List.cons_append, ← List.append_assoc] at he Hw ⊢
  obtain ⟨rfl, hz⟩ := List.append_inj' he rfl
  cases hz
  obtain ⟨Hleft, -, Hright⟩ := Hw.of_node.2.1.of_append.1.sides
  rw [symbols_append] at hxs
  obtain ⟨hleft, hitems⟩ := file_of_append hxs
  obtain ⟨k, cs, us, hcs, hk, hright⟩ := (Parses.item_cases hitems).resolve_left (by simp)
  obtain ⟨rfl, rfl⟩ := List.cons.inj hcs
  have hends : Ends (ahead (.node k cs :: right) []) := Parses.ends_items Hxs.right hitems nofun
  have hends' : Ends (ahead right []) := Parses.ends_items Hxs.right.tail hright nofun
  rw [ahead, List.append_nil] at hends'
  rintro rfl
  refine ⟨_, e, rfl, Renders.contents fun hlen => Renders.items_front hS Hxs.left Hleft hleft ?_
    (fun budget hbudget => Renders.items_item hS R.leaves_ne_nil ?_ Hxs.right.tail Hright hright
      budget hbudget) _ hlen⟩
  · have hhead := R.headD_eq [] right []
    rw [ends_iff] at hends ⊢
    exact hhead ▸ hends
  · obtain ⟨ds, rfl⟩ := R.exists_node rfl
    rcases hk with rfl | rfl
    · exact hy rfl _
    · exact hy rfl _ hends'

end

section

variable (hS : S.Sound)
include hS

/-- Entries start with a name. -/
theorem headD_members (H : Regular Token.kind S.bad [.node .members cs]) :
    (ahead [.node .members cs] rest).headD .eof = .fieldName := by
  obtain ⟨hcs, Hcs⟩ := H.of_node (by decide)
  obtain ⟨ds, us, rfl⟩ := exists_node_of_list _ hcs
  rw [ahead, leavesAll_node]
  exact Parses.headD_pair hS Hcs

variable (R : x.Resembles y)
include R

theorem members (hy : Covers S q (.members :: above) y)
    (H : Regular Token.kind S.bad [.node .members (left ++ x :: right)])
    (Hw : Within Token.kind S.limits.maxDepth S.bad above [.node .members (left ++ x :: right)] 0) :
    Covers S q above (.node .members (left ++ y :: right)) := by
  obtain ⟨hword, Hc⟩ := H.of_node (by decide)
  obtain ⟨Hleft, -, Hright⟩ := Hw.of_node.2.1.sides
  obtain ⟨ds, rfl⟩ : ∃ ds, x = .node .pair ds := by
    have hatoms : ∀ s ∈ (list (Form.node .pair)).atoms, s = .node .pair ∨ s = .token .separator := by
      decide
    have hmem := hatoms _ (mem_atoms hword _ (List.mem_map_of_mem (List.mem_append_right _ (.head _))))
    have hcarries := R.carries
    cases x with
    | leaf => cases hcarries
    | node j ds =>
      cases hmem.resolve_right nofun
      exact ⟨ds, rfl⟩
  obtain ⟨cs, rfl⟩ := R.exists_node rfl
  have hhead := (R.headD_eq [] [] []).symm.trans (Parses.headD_pair hS Hc.right.head)
  intro room b rest hroom hb
  have hvalue : ParsesValue S (.pair :: .members :: above) _ := parsesValue hS nofun hroom
  have hlevels : levels (.members :: above) ≤ S.limits.maxDepth := Nat.le.intro hroom
  refine Renders.members fun hlen => Renders.membersLoop_front hS hvalue hlevels rfl Hc.left Hleft
    hword (fun hwords budget found hbudget => ?_) _ _ hlen
  exact Renders.membersLoop_pair hS hvalue hlevels hhead (fun b rest hb => hy room b rest hroom hb)
    Hc.right.tail Hright hwords hb budget found hbudget

theorem object (hy : Covers S q (.object :: above) y)
    (H : Regular Token.kind S.bad [.node .object (left ++ x :: right)])
    (Hw : Within Token.kind S.limits.maxDepth S.bad above [.node .object (left ++ x :: right)] 0) :
    Covers S q above (.node .object (left ++ y :: right)) := by
  have hreach := Hw.of_node.1
  rw [reach_of_ne (by decide)] at hreach
  have hlevels : levels (.object :: above) = levels above + 1 := rfl
  obtain ⟨a, ms, b, he, ha, hb, rfl | ⟨is, rfl, His⟩⟩ := H.object
  · exact absurd (R.exists_carries he) (by simp [Sketch.Carries])
  obtain ⟨rfl, rfl, rfl, ws, rfl⟩ := R.exists_child [.leaf a] [.leaf b] he
    (by simp [Sketch.Carries]) (by simp [Sketch.Carries])
  refine ⟨fun rest => ha, fun room rest hroom => ?_⟩
  cases room with
  | zero => omega
  | succ room =>
    have hhead := (R.headD_eq [] [] (b :: rest)).symm.trans (headD_members hS His)
    exact Renders.object ha (Renders.body ha hb hhead
      (hy room b rest (levels_cons_add (k := .object) rfl hroom) hb))

theorem blueprint (hy : Covers S q (.blueprint :: above) y)
    (H : Regular Token.kind S.bad [.node .blueprint (left ++ x :: right)]) :
    Covers S q above (.node .blueprint (left ++ y :: right)) := by
  obtain ⟨n, a, ms, b, he, hn, ha, hb, rfl | ⟨is, rfl, His⟩⟩ := H.blueprint
  · exact absurd (R.exists_carries he) (by simp [Sketch.Carries, carriers])
  obtain ⟨rfl, rfl, rfl, ws, rfl⟩ := R.exists_child [.node .blueprintType [.leaf n], .leaf a]
    [.leaf b] he (by simp [Sketch.Carries, carriers]) (by simp [Sketch.Carries])
  rintro rfl rest
  have hhead := (R.headD_eq [] [] (b :: rest)).symm.trans (headD_members hS His)
  exact Renders.item_blueprint hn (Renders.body ha hb hhead (hy _ b rest (Nat.zero_add _) hb))

theorem node {k : NodeKind} (hy : Covers S q (k :: above) y)
    (H : Regular Token.kind S.bad [.node k (left ++ x :: right)])
    (Hw : Within Token.kind S.limits.maxDepth S.bad above [.node k (left ++ x :: right)] 0) :
    Covers S q above (.node k (left ++ y :: right)) := by
  have hk := (R.node H Hw).carries
  simp only [Sketch.Carries, carriers, List.mem_cons, List.not_mem_nil, or_false] at hk
  rcases hk with rfl | rfl | rfl | rfl | rfl | rfl | rfl | rfl
  · exact file R hy H Hw hS
  · exact blueprint hS R hy H
  · exact variableDef R hy H
  · exact members hS R hy H Hw
  · exact pair R hy H Hw
  · exact value R hy H
  · exact object hS R hy H Hw
  · exact variableRefExpr R hy H Hw

end

/-- Entries in a hole are rendered with all that is around it, when they are where they stand. -/
theorem fill {p : Hole Token} {above : List NodeKind} (hS : S.Sound)
    (hx : ∀ above, Regular Token.kind S.bad [x] →
      Within Token.kind S.limits.maxDepth S.bad above [x] 0 → x.Resembles y ∧ Covers S q above y)
    (H : Regular Token.kind S.bad [p.fill x])
    (Hw : Within Token.kind S.limits.maxDepth S.bad above [p.fill x] 0) :
    (p.fill x).Resembles (p.fill y) ∧ Covers S q above (p.fill y) := by
  induction p generalizing above with
  | here => exact hx above H Hw
  | child k left p right ih =>
    obtain ⟨R, hy⟩ := ih (Hw.whole H).2.right.head Hw.of_node.2.1.sides.2.1
    exact ⟨R.node H Hw, node hS R hy H Hw⟩

end Covers

/-- Where the leaves of a tree are the tokens of a text and the tree is rendered, it is the tree of the
text, and the errors are those that are raised. -/
theorem parse_covers {source : String} {limits : Limits} {bad : Sketch Token → Prop}
    {tree : Sketch Token} (hready : Ready limits (State.start source))
    (h : Covers ⟨limits, tokenize source, bad⟩ q [] tree)
    (hroot : symbol Token.kind tree = .node .file)
    (hleaves : tree.leaves = significant (tokenize source)) :
    .node .file (Element.sketches (parse source limits).tree.root.children) = tree ∧
      ∃ errors, q errors ∧ (parse source limits).errors = (SyntaxError.recorded errors).reverse := by
  cases tree with
  | leaf => cases hroot
  | node k cs =>
    cases hroot
    obtain ⟨xs, e, rfl, hcontents⟩ := h rfl
    have heof : significant [(TokenStream.ofChars source.toList).eof] =
        [(TokenStream.ofChars source.toList).eof] := rfl
    rw [leaves, leavesAll_append, tokenize, TokenStream.toList, significant_append, heof] at hleaves
    obtain ⟨hbody, he⟩ := List.append_inj' hleaves rfl
    cases he
    have hstart : significant (State.start source).rest = leavesAll xs ++ [] := by
      rw [List.append_nil, hbody, significant_start]
    obtain ⟨es, t, ⟨-, -, rfl, errors, hq, hraised⟩, hchildren, herrors⟩ :=
      parse_of_ensures (hcontents _ (reading_start hready) hstart)
    refine ⟨congrArg _ hchildren, errors, hq, herrors.trans ?_⟩
    rw [hraised]
    exact congrArg (fun raised => (SyntaxError.recorded raised).reverse) (List.append_nil _)

end Blueprint
