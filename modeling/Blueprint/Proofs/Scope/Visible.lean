import Blueprint.Scope
import Blueprint.Proofs.Halving
import Blueprint.Proofs.Grammar.Extents
import Blueprint.Proofs.Tree.Seen

/-!
# Definitions that are visible at a place

The variables of a file end one after the other, so halving the list of the definitions of a name
finds those that end before a place (`VariableDef.take_countUpTo`). The definitions of a name there
tell of the variables of that name up to there, from the last `=` on (`parse_definitions`). A
variable ends behind every reference in its value, so it is never what such a reference means.
-/

namespace Blueprint

open Cursor Element

/-! ## Lists of definitions -/

/-- A list is the part of another one from its last base on, or all of it when it has no base. -/
structure FromLast {α : Type} (isBase : α → Prop) (list part : List α) : Prop where
  suffix : part <:+ list
  base : (∃ a ∈ list, isBase a) → ∃ a ∈ part.head?, isBase a
  later : ∀ a ∈ part.tail, ¬isBase a
  whole : (∀ a ∈ list, ¬isBase a) → part = list

namespace VariableDef

/-- Among definitions that end one after the other, halving finds those that end in time. -/
theorem take_countUpTo {defs : List VariableDef}
    (h : defs.Pairwise (·.span.stop ≤ ·.span.stop)) (offset : Nat) :
    defs.take (countUpTo offset defs) = defs.filter (·.span.stop ≤ offset) :=
  take_partitionPoint <| h.imp fun hle hstop =>
    decide_eq_true (hle.trans (of_decide_eq_true hstop))

/-- A definition tells of a variable: it has the name and the operator of the variable, its range and
that of its value. -/
structure TellsOf (d : VariableDef) (v : VariableView) : Prop where
  name : v.name? = some d.name
  operator : v.operator? = some d.operator
  span : v.span = d.span
  valueSpan : v.value?.map View.span = d.valueSpan

theorem ofView?_eq_some_iff {v : VariableView} {d : VariableDef} :
    ofView? v = some d ↔ d.TellsOf v := by
  constructor
  · intro h
    obtain ⟨name, hname, h⟩ := Option.bind_eq_some_iff.1 h
    obtain ⟨operator, hoperator, h⟩ := Option.bind_eq_some_iff.1 h
    cases h
    exact ⟨hname, hoperator, rfl, rfl⟩
  · intro H
    obtain ⟨name, operator, span, valueSpan⟩ := d
    simp only [ofView?, H.name, H.operator, H.span, H.valueSpan, Option.bind_eq_bind,
      Option.bind_some, Option.pure_def]

/-- Variables that have a name and an operator have one definition each, in the same order. -/
theorem forall₂_tellsOf {vs : List VariableView}
    (h : ∀ v ∈ vs, v.name?.isSome ∧ v.operator?.isSome) :
    List.Forall₂ TellsOf (vs.filterMap ofView?) vs := by
  induction vs with
  | nil => exact .nil
  | cons v vs ih =>
    obtain ⟨hname, hoperator⟩ := h v (.head _)
    obtain ⟨name, hname⟩ := Option.isSome_iff_exists.1 hname
    obtain ⟨operator, hoperator⟩ := Option.isSome_iff_exists.1 hoperator
    have hv : TellsOf ⟨name, operator, v.span, v.value?.map View.span⟩ v :=
      ⟨hname, hoperator, rfl, rfl⟩
    rw [List.filterMap_cons_some (ofView?_eq_some_iff.2 hv)]
    exact .cons hv (ih fun w hw => h w (.tail _ hw))

/-- Where definitions tell of variables, there is an `=` among the ones when there is one among the
others. -/
theorem exists_assign_iff {ds : List VariableDef} {vs : List VariableView}
    (h : List.Forall₂ TellsOf ds vs) :
    (∃ d ∈ ds, d.operator = .assign) ↔ ∃ v ∈ vs, v.operator? = some .assign := by
  induction h with
  | nil => exact ⟨nofun, nofun⟩
  | cons hd _ ih =>
    simp only [List.mem_cons, exists_eq_or_imp, ih, hd.operator, Option.some.injEq]

theorem exists_of_mem {ds : List VariableDef} {vs : List VariableView}
    (h : List.Forall₂ TellsOf ds vs) {d : VariableDef} (hd : d ∈ ds) : ∃ v ∈ vs, d.TellsOf v := by
  induction h with
  | nil => cases hd
  | cons htells _ ih =>
    rcases List.mem_cons.1 hd with rfl | hd
    · exact ⟨_, .head _, htells⟩
    · obtain ⟨v, hv, htells⟩ := ih hd
      exact ⟨v, .tail _ hv, htells⟩

/-- The definitions from the last `=` on tell of the variables from the last `=` on. -/
theorem exists_fromLast {ds : List VariableDef} {vs : List VariableView}
    (h : List.Forall₂ TellsOf ds vs) :
    ∃ part, FromLast (·.operator? = some .assign) vs part ∧
      List.Forall₂ TellsOf (fromLastAssign ds) part := by
  induction h with
  | nil => exact ⟨[], ⟨List.suffix_refl _, nofun, nofun, fun _ => rfl⟩, .nil⟩
  | @cons d v ds vs hd hds ih =>
    rw [fromLastAssign]
    split
    · next hany =>
      obtain ⟨part, H, hpart⟩ := ih
      have hex := (exists_assign_iff hds).1 (by simpa using hany)
      refine ⟨part, ⟨H.suffix.trans (List.suffix_cons v vs), fun _ => H.base hex, H.later,
        fun hnone => ?_⟩, hpart⟩
      obtain ⟨w, hw, hassign⟩ := hex
      exact absurd hassign (hnone w (.tail _ hw))
    · next hany =>
      have hnone : ∀ w ∈ vs, w.operator? ≠ some .assign := fun w hw hassign =>
        hany (by simpa using (exists_assign_iff hds).2 ⟨w, hw, hassign⟩)
      refine ⟨v :: vs, ⟨List.suffix_refl _, ?_, hnone, fun _ => rfl⟩, .cons hd hds⟩
      rintro ⟨w, hw, hassign⟩
      rcases List.mem_cons.1 hw with rfl | hw
      · exact ⟨w, rfl, hassign⟩
      · exact absurd hassign (hnone w hw)

end VariableDef

/-! ## References and the variables above them -/

namespace Element.Tiles

variable {p q : Position} {es : List Element}

/-- A node ends behind the start of every token below it that is not empty. -/
theorem start_lt_stop (H : Tiles p es q) {above : List Node} {a c : Cursor}
    (ha : a ∈ ofElements above es) (hc : c ∈ ofElements (a.node :: a.above) a.node.children)
    {t : Token} (ht : t ∈ c.descendantTokens) (hlt : t.span.start < t.span.stop) :
    c.span.start < a.span.stop := by
  obtain ⟨p', q', -, -, -, -, Ha, hspan⟩ := H.exists_place ha
  obtain ⟨p'', q'', ts, us, hleaves, -, Hc, hspan'⟩ := Ha.exists_place hc
  have hstart : p''.offset ≤ t.span.start := Hc.map_token.le_start t ht
  have hstop : t.span.stop ≤ q'.offset :=
    (Ha.map_token.stop_between (.token t) (List.mem_map_of_mem (by
      rw [hleaves]
      exact List.mem_append_left _ (List.mem_append_right _ ht)))).2
  rw [hspan, hspan']
  exact Nat.lt_of_le_of_lt hstart (Nat.lt_of_lt_of_le hlt hstop)

end Element.Tiles

/-! ## Lookup -/

/-- The variables of a file that give a name a value and end at an offset or before it. -/
def FileView.assignedUpTo (file : FileView) (name : String) (offset : Nat) : List VariableView :=
  file.assignments.filter fun v =>
    v.name? == some name && v.operator?.isSome && decide (v.span.stop ≤ offset)

/-- The variables of a file end one after the other. -/
theorem FileView.pairwise_assignments {file : FileView} {p q : Position}
    (H : Tiles p file.cursor.node.children q) :
    file.assignments.Pairwise (·.span.stop ≤ ·.span.stop) :=
  View.pairwise_children (r := fun a b => a.stop ≤ b.stop) H.pairwise_stop

namespace VariableDef

/-- In a file whose variables end one after the other, the definitions of a name that end in time
are those of the variables that do. -/
theorem definitions_eq {file : FileView}
    (h : file.assignments.Pairwise (·.span.stop ≤ ·.span.stop)) (name : String) (offset : Nat) :
    (Scope.ofFile file).definitions name offset =
      fromLastAssign ((file.assignedUpTo name offset).filterMap ofView?) := by
  have hdefs : (file.assignments.filterMap ofView?).Pairwise (·.span.stop ≤ ·.span.stop) :=
    List.pairwise_filterMap.2 <| h.imp fun {v w} hle d hd e he => by
      rw [← (ofView?_eq_some_iff.1 hd).span, ← (ofView?_eq_some_iff.1 he).span]
      exact hle
  rw [Scope.definitions, Scope.ofFile]
  simp only
  rw [take_countUpTo (hdefs.sublist List.filter_sublist), List.filter_filter,
    List.filter_filterMap, FileView.assignedUpTo, List.filterMap_filter]
  congr 2
  funext v
  cases hv : ofView? v with
  | none => simp
  | some d =>
    have H := ofView?_eq_some_iff.1 hv
    simp [H.name, H.operator, H.span, Option.filter, and_comm]

/-- They tell of these variables, from the last `=` on. -/
theorem exists_definitions {file : FileView}
    (h : file.assignments.Pairwise (·.span.stop ≤ ·.span.stop)) (name : String) (offset : Nat) :
    ∃ vs, FromLast (·.operator? = some .assign) (file.assignedUpTo name offset) vs ∧
      List.Forall₂ TellsOf ((Scope.ofFile file).definitions name offset) vs := by
  rw [definitions_eq h]
  refine exists_fromLast (forall₂_tellsOf fun v hv => ?_)
  have hcond := (List.mem_filter.1 hv).2
  simp only [Bool.and_eq_true, beq_iff_eq] at hcond
  exact ⟨by rw [hcond.1.1]; rfl, hcond.1.2⟩

end VariableDef

/-- What a token of a reference says about a variable around it: the variable ends behind it. -/
theorem Tree.start_lt_stop_of_mem_ancestors {source : String} {tree : Tree} {q : Position}
    (H : Tiles .first tree.root.children q) (hleaves : leavesAll tree.root.children = tokenize source)
    {a c : Cursor} (hc : c ∈ tree.cursors) (ha : a ∈ c.ancestors) (hroot : a ≠ tree.cursor)
    {t : Token} (ht : t ∈ c.childTokens) (hkind : t.kind ≠ .eof) :
    c.span.start < a.span.stop := by
  rw [cursors_eq_cons] at hc
  rcases List.mem_cons.1 hc with rfl | hc
  · cases ha
  rcases mem_of_mem_ancestors ha hc with h | ⟨haes, hover⟩
  · exact absurd (List.mem_singleton.1 h) hroot
  have htleaves := mem_descendantTokens ht
  have hbody : t ∈ (TokenStream.ofChars source.toList).body := by
    obtain ⟨_, _, ts, us, hplace, -⟩ := H.exists_place hc
    have hmem : t ∈ tokenize source := by
      rw [← hleaves, hplace]
      exact List.mem_append_left _ (List.mem_append_right _ htleaves)
    refine (List.mem_append.1 hmem).resolve_right fun heof => hkind ?_
    rw [List.mem_singleton.1 heof]
    rfl
  exact H.start_lt_stop haes hover htleaves (start_lt_stop_of_mem_body hbody)

/-- Names in the file of a tree are looked up as the file says. The definitions of a name at an
offset tell of the variables that give it a value and end there or before, from the last `=` on, and
the name means the last of them. A reference means what its name does where it starts. That is a
variable of its name, and it is over before the reference starts: not a later one, and not one that
the reference is in. -/
structure FileView.LooksUp (file : FileView) (tree : Tree) : Prop where
  definitions : ∀ name offset, ∃ vs,
    FromLast (·.operator? = some .assign) (file.assignedUpTo name offset) vs ∧
      List.Forall₂ VariableDef.TellsOf ((Scope.ofFile file).definitions name offset) vs
  last : ∀ name offset, (Scope.ofFile file).resolveVariable? name offset =
    ((Scope.ofFile file).definitions name offset).getLast?
  resolved : ∀ r : ReferenceView, r.cursor ∈ tree.cursors →
    r.resolve? (Scope.ofFile file) =
      r.name?.bind ((Scope.ofFile file).resolveVariable? · r.span.start)
  meant : ∀ r : ReferenceView, r.cursor ∈ tree.cursors → ∀ d,
    r.resolve? (Scope.ofFile file) = some d →
      ∃ v ∈ file.assignments, d.TellsOf v ∧ v.name? = r.name?
  earlier : ∀ r : ReferenceView, r.cursor ∈ tree.cursors → ∀ d,
    r.resolve? (Scope.ofFile file) = some d →
      ∀ v ∈ file.assignments, d.TellsOf v →
        v.span.stop ≤ r.span.start ∧ v.cursor ∉ r.cursor.ancestors

/-- What a reference means is the definition of a variable of its name that ends before it. -/
theorem ReferenceView.exists_of_resolve? {file : FileView}
    (h : file.assignments.Pairwise (·.span.stop ≤ ·.span.stop)) {r : ReferenceView}
    {d : VariableDef} (hd : r.resolve? (Scope.ofFile file) = some d) :
    ∃ v ∈ file.assignments, d.TellsOf v ∧ v.name? = r.name? ∧ r.name?.isSome ∧
      v.span.stop ≤ r.span.start := by
  obtain ⟨name, hname, hlast⟩ := Option.bind_eq_some_iff.1 hd
  obtain ⟨vs, H, htells⟩ := VariableDef.exists_definitions h name r.span.start
  obtain ⟨v, hv, hdv⟩ := VariableDef.exists_of_mem htells (List.mem_of_getLast? hlast)
  obtain ⟨hv, hcond⟩ := List.mem_filter.1 (H.suffix.mem hv)
  simp only [Bool.and_eq_true, beq_iff_eq, decide_eq_true_eq] at hcond
  exact ⟨v, hv, hdv, hcond.1.1.trans hname.symm, by rw [hname]; rfl, hcond.2⟩

/-- In the tree of a text names are looked up as its file says, whatever the limits are. -/
theorem parse_definitions (source : String) (limits : Limits) :
    ∃ file, (parse source limits).tree.file? = some file ∧
      file.LooksUp (parse source limits).tree := by
  obtain ⟨es, q, hroot, H, hleaves, -⟩ := exists_root source limits
  generalize (parse source limits).tree = tree at *
  have hkind : tree.cursor.kind = .file := congrArg Node.kind hroot
  have hes : es = tree.root.children := by rw [hroot]
  subst hes
  have hfile : tree.file? = some ⟨tree.cursor, hkind⟩ := Cursor.as?_eq_some_iff.2 rfl
  have hordered := @FileView.pairwise_assignments ⟨tree.cursor, hkind⟩ _ _ H
  refine ⟨_, hfile, VariableDef.exists_definitions hordered, fun _ _ => rfl, fun _ _ => rfl,
    fun r _ d hd => ?_, fun r hr d hd v hv hdv => ?_⟩
  · obtain ⟨v, hv, hdv, hname, -⟩ := r.exists_of_resolve? hordered hd
    exact ⟨v, hv, hdv, hname⟩
  · obtain ⟨w, -, hdw, -, hsome, hle⟩ := r.exists_of_resolve? hordered hd
    have hspan : v.span = w.span := hdv.span.trans hdw.span.symm
    rw [hspan]
    refine ⟨hle, fun habove => ?_⟩
    have hne : v.cursor ≠ tree.cursor := fun h => by
      have := v.kind_eq.symm.trans ((congrArg Cursor.kind h).trans hkind)
      cases this
    obtain ⟨t, ht⟩ := Option.isSome_iff_exists.1 (Option.isSome_map.symm.trans hsome)
    have htkind := List.find?_some ht
    have hlt := tree.start_lt_stop_of_mem_ancestors H hleaves hr habove hne
      (List.mem_of_find?_eq_some ht) (by
        rw [beq_iff_eq.1 htkind]
        decide)
    rw [show v.cursor.span = w.span from hspan] at hlt
    exact absurd hle (Nat.not_le.2 hlt)

/-- Behind two `=` and a `+=`, a name has two definitions, which tell of the second variable and the
third, and it means the last one. -/
theorem parse_definitions_appended :
    let source := "A = 1\nA = 2\nA += 3\nB = A"
    ∃ file, (parse source .standard).tree.file? = some file ∧
      ∃ d e, (Scope.ofFile file).definitions "A" 23 = [d, e] ∧
        (d.operator, d.span.start) = (.assign, 6) ∧ (e.operator, e.span.start) = (.append, 12) ∧
        (Scope.ofFile file).resolveVariable? "A" 23 = some e ∧
        ∃ v w, d.TellsOf v ∧ e.TellsOf w ∧ [v, w] <:+ file.assignedUpTo "A" 23 := by
  intro source
  obtain ⟨file, hfile, H⟩ := parse_definitions source .standard
  have hcompute : ((parse source .standard).tree.file?.map fun f =>
      ((Scope.ofFile f).definitions "A" 23).map fun d => (d.operator, d.span.start)) =
        some [(.assign, 6), (.append, 12)] := by decide +kernel
  rw [hfile] at hcompute
  obtain ⟨d, ds, hdefs, hd, hds⟩ := List.map_eq_cons_iff.1 (Option.some.inj hcompute)
  obtain ⟨e, rfl, he⟩ := List.map_eq_singleton_iff.1 hds
  refine ⟨file, hfile, d, e, hdefs, hd, he, ?_, ?_⟩
  · rw [H.last, hdefs]
    rfl
  · obtain ⟨vs, Hvs, htells⟩ := H.definitions "A" 23
    rw [hdefs] at htells
    cases htells with
    | cons hdv hrest =>
      cases hrest with
      | cons hew hnil =>
        cases hnil
        exact ⟨_, _, hdv, hew, Hvs.suffix⟩

end Blueprint
