import Blueprint.Proofs.Grammar.Named
import Blueprint.Proofs.Scope.Modules

/-!
# The way from a pair up to its module

Above a pair stand, one after the other, objects, values and further pairs, up to the body of a
module or to a variable. So the path of a pair is the path of the pair around it and one more name
(`PairView.fieldPath_of_enclosing?`), it starts with the type of the module, and the field stands
directly in a module when there is nothing else in the path (`parse_fieldPaths`).
-/

namespace Blueprint

open Cursor Element

/-! ## What can stand above what -/

namespace NodeKind

theorem eq_members_of_pair {parent : NodeKind} (h : .node .pair ∈ parent.form.atoms) :
    parent = .members := by
  revert h
  cases parent <;> decide

theorem blueprint_or_object_of_members {parent : NodeKind}
    (h : .node .members ∈ parent.form.atoms) : parent = .blueprint ∨ parent = .object := by
  revert h
  cases parent <;> decide

theorem eq_file_of_variable {parent : NodeKind} (h : .node .variable ∈ parent.form.atoms) :
    parent = .file := by
  revert h
  cases parent <;> decide

theorem not_mem_of_file (parent : NodeKind) : .node .file ∉ parent.form.atoms := by
  cases parent <;> decide

/-- The kinds of node that a value is made of between a pair or variable and the next pairs. -/
def between : List NodeKind := [.object, .value, .variableRefExpr]

theorem of_between {kind parent : NodeKind} (hkind : kind ∈ between)
    (h : .node kind ∈ parent.form.atoms) :
    parent = .pair ∨ parent = .variable ∨ parent ∈ [.value, .variableRefExpr] := by
  revert parent
  revert kind
  have htable : ∀ kind ∈ between, ∀ parent ∈ all, .node kind ∈ parent.form.atoms →
      parent = .pair ∨ parent = .variable ∨ parent ∈ [.value, .variableRefExpr] := by decide
  exact fun {kind} hkind {parent} h => htable kind hkind parent (mem_all parent) h

end NodeKind

namespace Cursor

theorem ancestors_of_parent? {c p : Cursor} (h : c.parent? = some p) :
    c.ancestors = p :: p.ancestors := by
  obtain ⟨node, above⟩ := c
  cases above with
  | nil => cases h
  | cons q qs =>
    cases h
    rfl

/-- The nodes above a node of a tree are nodes of it. -/
theorem mem_cursors_of_mem_ancestors {tree : Tree} {a c : Cursor} (hc : c ∈ tree.cursors)
    (ha : a ∈ c.ancestors) : a ∈ tree.cursors := by
  rw [Tree.cursors_eq_ofElements] at hc ⊢
  exact ((mem_of_mem_ancestors ha hc).resolve_left nofun).1

/-- A cursor at a node below `above`, seen by the kinds of the nodes above it. -/
theorem kind_of_mem_upward {above : List Node} {c : Cursor} (hc : c ∈ upward above) :
    c.kind ∈ above.map Node.kind := by
  induction above with
  | nil => cases hc
  | cons p ps ih =>
    rcases List.mem_cons.1 hc with rfl | hc
    · exact .head _
    · exact .tail _ (ih hc)

/-- Between a part of a value and the first pair above it there is no module. Without such a pair
there is none at all. -/
theorem pair_or_no_module {kind : NodeKind} (hkind : kind ∈ NodeKind.between) {above : List Node}
    (H : (kind :: above.map Node.kind).IsChain fun kind parent => .node kind ∈ parent.form.atoms) :
    (∀ c ∈ upward above, c.kind ≠ .blueprint) ∨
      ∃ front, ∃ e : PairView, upward above = front ++ e.cursor :: e.cursor.ancestors ∧
        ∀ c ∈ front, c.kind ≠ .blueprint ∧ c.kind ≠ .pair := by
  induction above generalizing kind with
  | nil => exact .inl nofun
  | cons p ps ih =>
    obtain ⟨hp, H⟩ := List.isChain_cons_cons.1 H
    rcases NodeKind.of_between hkind hp with hpair | hvariable | hvalue
    · exact .inr ⟨[], ⟨⟨p, ps⟩, hpair⟩, rfl, nofun⟩
    · -- above a variable there is only the file
      refine .inl fun c hc => ?_
      rcases List.mem_cons.1 hc with rfl | hc
      · exact fun h => nomatch hvariable.symm.trans h
      · have hmem := kind_of_mem_upward hc
        rw [hvariable] at H
        match ps, H with
        | [q], .cons_cons hq _ =>
          rw [List.mem_singleton.1 hmem, NodeKind.eq_file_of_variable hq]
          decide
        | q :: r :: _, .cons_cons hq (.cons_cons hr _) =>
          rw [NodeKind.eq_file_of_variable hq] at hr
          exact absurd hr (NodeKind.not_mem_of_file _)
    · have hne : p.kind ≠ .blueprint ∧ p.kind ≠ .pair := by
        revert hvalue
        generalize p.kind = kind
        cases kind <;> decide
      rcases ih (List.mem_cons_of_mem _ hvalue) H with h | ⟨front, e, hsplit, hfront⟩
      · refine .inl fun c hc => ?_
        rcases List.mem_cons.1 hc with rfl | hc
        · exact hne.1
        · exact h c hc
      · refine .inr ⟨⟨p, ps⟩ :: front, e, congrArg (_ :: ·) hsplit, fun c hc => ?_⟩
        rcases List.mem_cons.1 hc with rfl | hc
        · exact hne
        · exact hfront c hc

/-- The nodes of a forest that starts with a node, trivia left out. -/
theorem filterMap_atNode?_of_head? {kind : NodeKind} {above : List Node} {es : List Element}
    (h : (symbols es).head? = some (.node kind)) :
    ∃ d ds, es.filterMap (atNode? above) = d :: ds ∧ d.kind = kind := by
  induction es with
  | nil => cases h
  | cons e es ih =>
    cases e with
    | token t =>
      cases htrivia : t.isTrivia with
      | true =>
        refine ih ?_
        rwa [symbols, List.filterMap_cons_none (by simp [symbol?, htrivia])] at h
      | false =>
        rw [← List.singleton_append, symbols_append, symbols_token htrivia] at h
        cases h
    | node i k s cs =>
      cases h
      exact ⟨_, _, rfl, rfl⟩

end Cursor

/-! ## Paths of pairs -/

namespace PairView

variable {p e : PairView} {m : ModuleView} {front cs : List Cursor}

/-- The pair stands directly in the body of the module. -/
def InBodyOf (p : PairView) (m : ModuleView) : Prop :=
  ∃ members : MembersView, p.cursor.parent? = some members.cursor ∧
    members.cursor.parent? = some m.cursor

/-- The innermost pair around a pair. -/
def enclosing? (p : PairView) : Option PairView := p.cursor.ancestors.findSome? (·.as? .pair)

/-- The innermost module around a pair. -/
def nearestModule? (p : PairView) : Option ModuleView :=
  p.cursor.ancestors.findSome? (·.as? .blueprint)

theorem InBodyOf.ancestors (h : p.InBodyOf m) : ∃ members : MembersView,
    p.cursor.ancestors = members.cursor :: m.cursor :: m.cursor.ancestors := by
  obtain ⟨members, hp, hm⟩ := h
  exact ⟨members, by rw [ancestors_of_parent? hp, ancestors_of_parent? hm]⟩

@[simp] theorem pathUp?_module : pathUp? (m.cursor :: cs) = some m.typeName?.toList := by
  rw [pathUp?, as?_eq_some_iff.2 rfl]

theorem pathUp?_pair : pathUp? (e.cursor :: cs) = (pathUp? cs).map (e.name?.toList ++ ·) := by
  have hmodule : e.cursor.as? .blueprint = none := dif_neg (by rw [e.kind_eq]; decide)
  rw [pathUp?, hmodule, as?_eq_some_iff.2 rfl]
  rfl

theorem pathUp?_append (h : ∀ c ∈ front, c.kind ≠ .blueprint ∧ c.kind ≠ .pair) :
    pathUp? (front ++ cs) = pathUp? cs := by
  induction front with
  | nil => rfl
  | cons c front ih =>
    obtain ⟨hmodule, hpair⟩ := h c (.head _)
    rw [List.cons_append, pathUp?, Cursor.as?, dif_neg hmodule, Cursor.as?, dif_neg hpair,
      ih fun d hd => h d (.tail _ hd)]
    exact Option.map_id'

/-- There is a path when there is a module above. -/
theorem isSome_pathUp?_iff : (pathUp? cs).isSome ↔ ∃ c ∈ cs, c.kind = .blueprint := by
  induction cs with
  | nil => simp [pathUp?]
  | cons c cs ih =>
    by_cases h : c.kind = .blueprint
    · rw [pathUp?, Cursor.as?, dif_pos h]
      exact iff_of_true rfl ⟨c, .head _, h⟩
    · rw [pathUp?, Cursor.as?, dif_neg h, Option.isSome_map, ih, List.exists_mem_cons_iff]
      exact (or_iff_right h).symm

/-- A path is not empty when the modules have types. -/
theorem pathUp?_ne_some_nil (h : ∀ m : ModuleView, m.cursor ∈ cs → m.typeName?.isSome) :
    pathUp? cs ≠ some [] := by
  induction cs with
  | nil => exact nofun
  | cons c cs ih =>
    by_cases hkind : c.kind = .blueprint
    · obtain ⟨typeName, htype⟩ := Option.isSome_iff_exists.1 (h ⟨c, hkind⟩ (.head _))
      rw [show c = View.cursor ⟨c, hkind⟩ from rfl, pathUp?_module, htype]
      exact nofun
    · rw [pathUp?, Cursor.as?, dif_neg hkind, ne_eq, Option.map_eq_some_iff]
      rintro ⟨path, hpath, hnil⟩
      rw [(List.append_eq_nil_iff.1 hnil).2] at hpath
      exact ih (fun m hm => h m (.tail _ hm)) hpath

theorem fieldPath_ne_nil (h : ∃ c ∈ p.cursor.ancestors, c.kind = .blueprint)
    (htyped : ∀ m : ModuleView, m.cursor ∈ p.cursor.ancestors → m.typeName?.isSome) :
    p.fieldPath ≠ [] := by
  obtain ⟨path, hpath⟩ := Option.isSome_iff_exists.1 (isSome_pathUp?_iff.2 h)
  rw [fieldPath, hpath, Option.getD_some, ne_eq, List.reverse_eq_nil_iff]
  rintro rfl
  exact pathUp?_ne_some_nil htyped hpath

theorem enclosing?_of_split (hsplit : p.cursor.ancestors = front ++ e.cursor :: e.cursor.ancestors)
    (hfront : ∀ c ∈ front, c.kind ≠ .blueprint ∧ c.kind ≠ .pair) : p.enclosing? = some e := by
  have hnone : front.findSome? (fun c => c.as? .pair) = none :=
    List.findSome?_eq_none_iff.2 fun c hc => dif_neg (hfront c hc).2
  have he : e.cursor.as? .pair = some e := as?_eq_some_iff.2 rfl
  rw [enclosing?, hsplit, List.findSome?_append, hnone, List.findSome?_cons, he]
  rfl

theorem InBodyOf.nearestModule?_eq (h : p.InBodyOf m) : p.nearestModule? = some m := by
  obtain ⟨members, hancestors⟩ := h.ancestors
  have hmembers : members.cursor.as? .blueprint = none := dif_neg (by rw [members.kind_eq]; decide)
  have hm : m.cursor.as? .blueprint = some m := as?_eq_some_iff.2 rfl
  rw [nearestModule?, hancestors, List.findSome?_cons, hmembers, List.findSome?_cons, hm]

/-- The module of a name is the one whose body its pair stands in. -/
theorem module?_eq_some_iff {f : FieldNameView} {members : MembersView}
    (hf : f.cursor.parent? = some p.cursor) (hp : p.cursor.parent? = some members.cursor) :
    f.module? = some m ↔ p.InBodyOf m := by
  have hfind : f.cursor.ancestors.find? (·.kind == .members) = some members.cursor := by
    have hpair : (p.cursor.kind == .members) = false := by rw [p.kind_eq]; rfl
    rw [ancestors_of_parent? hf, ancestors_of_parent? hp, List.find?_cons, hpair]
    exact List.find?_cons_of_pos (by rw [members.kind_eq]; rfl)
  have hmodule : f.module? = members.cursor.parent?.bind (·.as? .blueprint) := by
    rw [FieldNameView.module?, hfind]
    rfl
  rw [hmodule, Option.bind_eq_some_iff]
  constructor
  · rintro ⟨c, hc, hm⟩
    exact ⟨members, hp, (as?_eq_some_iff.1 hm).symm ▸ hc⟩
  · rintro ⟨members', hp', hm⟩
    rw [← Option.some.inj (hp.symm.trans hp')] at hm
    exact ⟨m.cursor, hm, as?_eq_some_iff.2 rfl⟩

theorem fieldPath_of_no_module (h : ∀ c ∈ p.cursor.ancestors, c.kind ≠ .blueprint) :
    p.fieldPath = [] := by
  have hnone : pathUp? p.cursor.ancestors = none := by
    rw [← Option.not_isSome_iff_eq_none, isSome_pathUp?_iff]
    exact fun ⟨c, hc, hkind⟩ => h c hc hkind
  rw [fieldPath, hnone]
  rfl

theorem fieldPath_of_inBodyOf (h : p.InBodyOf m) : p.fieldPath = m.typeName?.toList := by
  obtain ⟨members, hancestors⟩ := h.ancestors
  have hmembers : ∀ c ∈ [members.cursor], c.kind ≠ .blueprint ∧ c.kind ≠ .pair := by
    intro c hc
    rw [List.mem_singleton.1 hc, members.kind_eq]
    decide
  rw [fieldPath, hancestors, ← List.singleton_append, pathUp?_append hmembers, pathUp?_module]
  cases m.typeName? <;> rfl

/-- Inside another pair that is in a module, the path goes on with the name of that pair. -/
theorem fieldPath_of_enclosing? {name : String}
    (hsplit : p.cursor.ancestors = front ++ e.cursor :: e.cursor.ancestors)
    (hfront : ∀ c ∈ front, c.kind ≠ .blueprint ∧ c.kind ≠ .pair) (hname : e.name? = some name)
    (hmodule : ∃ c ∈ e.cursor.ancestors, c.kind = .blueprint) :
    p.fieldPath = e.fieldPath ++ [name] := by
  obtain ⟨path, hpath⟩ := Option.isSome_iff_exists.1 (isSome_pathUp?_iff.2 hmodule)
  rw [fieldPath, hsplit, pathUp?_append hfront, pathUp?_pair, fieldPath, hpath, hname]
  exact List.reverse_cons

/-- Pairs say what is around them. In no module the path is empty, directly in the body of a module
it is the type of the module, and further inside it goes on from the path of the pair around it.
The name of a pair belongs to it, and the module of the name is the one whose body the pair stands
in: there is one when the path has one entry, and then the path starts with it. -/
structure PathAgrees (p : PairView) : Prop where
  outside : (∀ c ∈ p.cursor.ancestors, c.kind ≠ .blueprint) → p.fieldPath = []
  direct : ∀ m, p.InBodyOf m → ∃ typeName, m.typeName? = some typeName ∧ p.fieldPath = [typeName]
  nested : (∃ c ∈ p.cursor.ancestors, c.kind = .blueprint) → (∀ m, ¬ p.InBodyOf m) →
    ∃ e name, p.enclosing? = some e ∧ e.name? = some name ∧ p.fieldPath = e.fieldPath ++ [name]
  named : ∃ f, p.fieldName? = some f ∧ f.pair? = some p
  module? : ∀ f, p.fieldName? = some f → ∀ m, f.module? = some m ↔ p.InBodyOf m
  isModuleField : ∀ f, p.fieldName? = some f → (f.isModuleField ↔ p.fieldPath.length = 1)
  nearest : ∀ f, p.fieldName? = some f → f.isModuleField → f.module? = p.nearestModule?

end PairView

/-! ## The pairs of a text -/

section
variable {source : String} {limits : Limits} {c : Cursor}

/-- The nodes above a node of a text, by their kinds. -/
theorem path_of_mem_cursors (hc : c ∈ (parse source limits).tree.cursors) :
    NodeKind.Path limits.maxDepth (c.kind :: c.above.map Node.kind) := by
  have hcourse := (Rule.follows_contents limits (State.wf_start source)).2
  have hbelow : Everywhere (fun kind above _ => NodeKind.Path limits.maxDepth (kind :: above))
      [.file] (parse source limits).tree.root.children := by
    rw [root_children_eq, Rule.fileBody_apply]
    exact hcourse.everywhere.append ((Everywhere.map_token _).append (.token .nil))
  rcases List.mem_cons.1 hc with rfl | hc
  · exact Rule.path_file
  · exact @Everywhere.of_mem_ofElements _ _ [(parse source limits).tree.root] hbelow c hc

theorem isSome_typeName?_of_mem_cursors {m : ModuleView}
    (hm : m.cursor ∈ (parse source limits).tree.cursors) : m.typeName?.isSome := by
  have hfile : (parse source limits).tree.file? = some ⟨(parse source limits).tree.cursor, rfl⟩ :=
    as?_eq_some_iff.2 rfl
  have hmodules : m ∈ FileView.modules ⟨(parse source limits).tree.cursor, rfl⟩ := by
    rw [← filterMap_cursors_eq_modules hfile]
    exact List.mem_filterMap.2 ⟨m.cursor, hm, as?_eq_some_iff.2 rfl⟩
  exact ModuleView.isSome_typeName?
    (typed_of_mem_root (View.toElement_mem_of_mem_children hmodules))

/-- The name of a pair stands below it. -/
theorem exists_fieldName? {p : PairView} (hp : p.cursor ∈ (parse source limits).tree.cursors) :
    ∃ f : FieldNameView, p.fieldName? = some f ∧ f.cursor.parent? = some p.cursor := by
  have hnames : Everywhere NodeKind.Named [.file] (parse source limits).tree.root.children := by
    rw [root_children_eq]
    exact Rule.names_fileBody limits _ _ _
  have hbelow : p.cursor ∈ ofElements [(parse source limits).tree.root]
      (parse source limits).tree.root.children := by
    refine (List.mem_cons.1 hp).resolve_left fun h => ?_
    have := p.kind_eq.symm.trans (congrArg Cursor.kind h)
    cases this
  have hnamed := @Everywhere.of_mem_ofElements _ _ [(parse source limits).tree.root] hnames _ hbelow
  obtain ⟨d, ds, hchildren, hkind⟩ := filterMap_atNode?_of_head? (hnamed p.kind_eq)
  rw [← childNodes_eq] at hchildren
  have hd : d.as? .fieldName = some ⟨d, hkind⟩ := as?_eq_some_iff.2 rfl
  refine ⟨⟨d, hkind⟩, ?_, parent?_eq_of_mem_childNodes (hchildren ▸ .head _)⟩
  rw [PairView.fieldName?, View.child?, hchildren, List.findSome?_cons, hd]

/-- What a node of a text may stand in. -/
theorem atoms_of_parent? {parent : Cursor} (hc : c ∈ (parse source limits).tree.cursors)
    (h : c.parent? = some parent) : .node c.kind ∈ parent.kind.form.atoms := by
  have hchain := (path_of_mem_cursors hc).chain
  obtain ⟨node, above⟩ := c
  cases above with
  | nil => cases h
  | cons q qs =>
    cases h
    exact (List.isChain_cons_cons.1 hchain).1

/-- A pair stands in a body, of a module or of an object. -/
theorem exists_members {p : PairView} (hp : p.cursor ∈ (parse source limits).tree.cursors) :
    ∃ members : MembersView, ∃ owner, p.cursor.parent? = some members.cursor ∧
      members.cursor.parent? = some owner ∧ owner ∈ (parse source limits).tree.cursors ∧
      (owner.kind = .blueprint ∨ owner.kind = .object) := by
  have hroot : (parse source limits).tree.cursor.kind = .file := rfl
  obtain ⟨members, hmembers, hparent, -⟩ := (Tree.exists_parent hp).resolve_left fun h => by
    have := p.kind_eq.symm.trans ((congrArg Cursor.kind h).trans hroot)
    cases this
  have hkind : members.kind = .members :=
    NodeKind.eq_members_of_pair (p.kind_eq ▸ atoms_of_parent? hp hparent)
  obtain ⟨owner, howner, hparent', -⟩ := (Tree.exists_parent hmembers).resolve_left fun h => by
    have := hkind.symm.trans ((congrArg Cursor.kind h).trans hroot)
    cases this
  exact ⟨⟨members, hkind⟩, owner, hparent, hparent', howner,
    NodeKind.blueprint_or_object_of_members (hkind ▸ atoms_of_parent? hmembers hparent')⟩

/-- A pair stands in the body of a module, or in no module, or in another pair with no module
between. -/
theorem PairView.inBodyOf_or {p : PairView}
    (hp : p.cursor ∈ (parse source limits).tree.cursors) :
    (∃ m, p.InBodyOf m) ∨ (∀ m, ¬ p.InBodyOf m) ∧
      ((∀ c ∈ p.cursor.ancestors, c.kind ≠ .blueprint) ∨
        ∃ front, ∃ e : PairView, p.cursor.ancestors = front ++ e.cursor :: e.cursor.ancestors ∧
          ∀ c ∈ front, c.kind ≠ .blueprint ∧ c.kind ≠ .pair) := by
  obtain ⟨members, owner, hparent, hparent', howner, hkind⟩ := exists_members hp
  rcases hkind with hmodule | hobject
  · exact .inl ⟨⟨owner, hmodule⟩, members, hparent, hparent'⟩
  · have hancestors : p.cursor.ancestors = members.cursor :: owner :: owner.ancestors := by
      rw [ancestors_of_parent? hparent, ancestors_of_parent? hparent']
    have hne : ∀ c ∈ [members.cursor, owner], c.kind ≠ .blueprint ∧ c.kind ≠ .pair := by
      intro c hc
      rcases List.mem_pair.1 hc with rfl | rfl
      · rw [members.kind_eq]
        decide
      · rw [hobject]
        decide
    refine .inr ⟨fun m hm => ?_, ?_⟩
    · obtain ⟨members', hancestors'⟩ := hm.ancestors
      rw [hancestors, List.cons.injEq, List.cons.injEq] at hancestors'
      have := hobject.symm.trans ((congrArg Cursor.kind hancestors'.2.1).trans m.kind_eq)
      cases this
    · have hbetween : owner.kind ∈ NodeKind.between := by
        rw [hobject]
        decide
      rw [hancestors]
      rcases pair_or_no_module hbetween (path_of_mem_cursors howner).chain with
        h | ⟨front, e, hsplit, hfront⟩
      · refine .inl fun c hc => ?_
        rcases List.mem_append.1 (show c ∈ [members.cursor, owner] ++ owner.ancestors from hc) with
          hc | hc
        · exact (hne c hc).1
        · exact h c hc
      · refine .inr ⟨[members.cursor, owner] ++ front, e, ?_, fun c hc => ?_⟩
        · exact congrArg (members.cursor :: owner :: ·) hsplit
        · exact (List.mem_append.1 hc).elim (hne c) (hfront c)

/-- Directly in the body of a module, the path is the type of the module. -/
theorem PairView.exists_fieldPath_of_inBodyOf {p : PairView} {m : ModuleView}
    (hp : p.cursor ∈ (parse source limits).tree.cursors) (h : p.InBodyOf m) :
    ∃ typeName, m.typeName? = some typeName ∧ p.fieldPath = [typeName] := by
  obtain ⟨members, hancestors⟩ := h.ancestors
  have hm : m.cursor ∈ p.cursor.ancestors := by
    rw [hancestors]
    exact .tail _ (.head _)
  obtain ⟨typeName, htype⟩ := Option.isSome_iff_exists.1
    (isSome_typeName?_of_mem_cursors (mem_cursors_of_mem_ancestors hp hm))
  refine ⟨typeName, htype, ?_⟩
  rw [PairView.fieldPath_of_inBodyOf h, htype]
  rfl

/-- Further inside a module there is a pair around the pair, with a path that is not empty, and with
the name that comes next. -/
theorem PairView.exists_fieldPath_of_nested {p : PairView}
    (hp : p.cursor ∈ (parse source limits).tree.cursors)
    (h : ∃ c ∈ p.cursor.ancestors, c.kind = .blueprint) (hbody : ∀ m, ¬ p.InBodyOf m) :
    ∃ e name, p.enclosing? = some e ∧ e.name? = some name ∧
      p.fieldPath = e.fieldPath ++ [name] ∧ e.fieldPath ≠ [] := by
  obtain ⟨c, hc, hkind⟩ := h
  obtain hnone | ⟨front, e, hsplit, hfront⟩ :=
    ((PairView.inBodyOf_or hp).resolve_left fun ⟨m, hm⟩ => hbody m hm).2
  · exact absurd hkind (hnone c hc)
  have he : e.cursor ∈ (parse source limits).tree.cursors := by
    apply mem_cursors_of_mem_ancestors hp
    rw [hsplit]
    exact List.mem_append_right _ (.head _)
  obtain ⟨g, hg, -⟩ := exists_fieldName? he
  have hname : e.name? = some g.name := by
    rw [PairView.name?, hg]
    rfl
  have habove : ∃ c ∈ e.cursor.ancestors, c.kind = .blueprint := by
    rw [hsplit] at hc
    rcases List.mem_append.1 hc with hc | hc
    · exact absurd hkind (hfront c hc).1
    · refine ⟨c, (List.mem_cons.1 hc).resolve_left fun heq => ?_, hkind⟩
      have := e.kind_eq.symm.trans ((congrArg Cursor.kind heq.symm).trans hkind)
      cases this
  refine ⟨e, g.name, PairView.enclosing?_of_split hsplit hfront, hname,
    PairView.fieldPath_of_enclosing? hsplit hfront hname habove, ?_⟩
  exact PairView.fieldPath_ne_nil habove fun m hm =>
    isSome_typeName?_of_mem_cursors (mem_cursors_of_mem_ancestors he hm)

/-- The path of a pair has one entry when the pair stands directly in the body of a module. -/
theorem PairView.length_fieldPath_eq_one_iff {p : PairView}
    (hp : p.cursor ∈ (parse source limits).tree.cursors) :
    p.fieldPath.length = 1 ↔ ∃ m, p.InBodyOf m := by
  by_cases hbody : ∃ m, p.InBodyOf m
  · obtain ⟨m, hm⟩ := hbody
    obtain ⟨typeName, -, hpath⟩ := PairView.exists_fieldPath_of_inBodyOf hp hm
    exact iff_of_true (by rw [hpath]; rfl) ⟨m, hm⟩
  · refine iff_of_false (fun hlength => ?_) hbody
    by_cases hmodule : ∃ c ∈ p.cursor.ancestors, c.kind = .blueprint
    · obtain ⟨e, name, -, -, hpath, hne⟩ :=
        PairView.exists_fieldPath_of_nested hp hmodule fun m hm => hbody ⟨m, hm⟩
      rw [hpath, List.length_append, List.length_singleton, Nat.add_eq_right] at hlength
      exact hne (List.eq_nil_of_length_eq_zero hlength)
    · rw [PairView.fieldPath_of_no_module fun c hc hkind => hmodule ⟨c, hc, hkind⟩] at hlength
      cases hlength

end

/-- Whatever the limits are, the pairs of a text say what is around them. -/
theorem parse_fieldPaths (source : String) (limits : Limits) (p : PairView)
    (hp : p.cursor ∈ (parse source limits).tree.cursors) : p.PathAgrees := by
  obtain ⟨members, -, hparent, -⟩ := exists_members hp
  obtain ⟨f, hf, hfparent⟩ := exists_fieldName? hp
  have hmodule (m : ModuleView) : f.module? = some m ↔ p.InBodyOf m :=
    PairView.module?_eq_some_iff hfparent hparent
  have hfield : f.isModuleField ↔ ∃ m, p.InBodyOf m :=
    Option.isSome_iff_exists.trans (exists_congr hmodule)
  constructor
  case outside => exact PairView.fieldPath_of_no_module
  case direct => exact fun _ => PairView.exists_fieldPath_of_inBodyOf hp
  case nested =>
    intro h hbody
    obtain ⟨e, name, he, hname, hpath, -⟩ := PairView.exists_fieldPath_of_nested hp h hbody
    exact ⟨e, name, he, hname, hpath⟩
  case named =>
    refine ⟨f, hf, ?_⟩
    rw [FieldNameView.pair?, hfparent]
    exact as?_eq_some_iff.2 rfl
  case module? =>
    intro g hg
    cases hf.symm.trans hg
    exact hmodule
  case isModuleField =>
    intro g hg
    cases hf.symm.trans hg
    rw [hfield, PairView.length_fieldPath_eq_one_iff hp]
  case nearest =>
    intro g hg h
    cases hf.symm.trans hg
    obtain ⟨m, hm⟩ := hfield.1 h
    rw [(hmodule m).2 hm, hm.nearestModule?_eq]

/-- A pair in an object in a pair, in a module. -/
theorem parse_fieldPaths_nested :
    let tree := (parse "m \x7b a: \x7b b: 1 \x7d \x7d" ⟨4, 50⟩).tree
    ∃ p : PairView, p.cursor ∈ tree.cursors ∧ p.fieldPath = ["m", "a"] ∧ p.PathAgrees := by
  intro tree
  obtain ⟨p, hp, hpath⟩ : ∃ p ∈ tree.cursors.filterMap (·.as? .pair),
      PairView.fieldPath p = ["m", "a"] := by decide +kernel
  obtain ⟨c, hc, hcp⟩ := List.mem_filterMap.1 hp
  have hmem := as?_eq_some_iff.1 hcp ▸ hc
  exact ⟨p, hmem, hpath, parse_fieldPaths _ _ p hmem⟩

end Blueprint
