import Mathlib.Data.List.Find
import Blueprint.Scope
import Blueprint.Command.Modules
import Blueprint.Proofs.Grammar.Truncates
import Blueprint.Proofs.Grammar.Typed
import Blueprint.Proofs.Tree.Depth
import Blueprint.Proofs.Tree.Seen

/-!
# Modules of a file

The modules of a tree are children of its root and have types, so nothing is left out where modules
without a type are skipped. What a scope says of a name, what a search along the file finds and what
is listed then are the same (`FileView.resolveModule?_eq`, `FileView.find?_listings`).
-/

namespace Blueprint

open Cursor Element

/-! ## Definitions of modules -/

namespace ModuleDef

theorem ofView?_eq_some_iff {v : ModuleView} {d : ModuleDef} :
    ofView? v = some d ↔ v.typeName? = some d.typeName ∧ v.name? = some d.name ∧ v.span = d.span := by
  obtain ⟨typeName, name, span⟩ := d
  cases htype : v.typeName? <;> cases hname : v.name? <;> simp [ofView?, htype, hname]

/-- Of definitions that are added one after the other, the first of a name is found. -/
theorem find?_foldl_insert (defs ds : List ModuleDef) (name : String) :
    (ds.foldl insert defs).find? (·.name == name) = (defs ++ ds).find? (·.name == name) := by
  induction ds generalizing defs with
  | nil => rw [List.foldl_nil, List.append_nil]
  | cons d ds ih =>
    rw [List.foldl_cons, ih, insert]
    split
    · next hany =>
      rw [List.find?_append, List.find?_append, List.find?_cons]
      split
      · next hd =>
        -- a definition of the same name is already there, so the new one is never found
        obtain ⟨e, he, hname⟩ := List.any_eq_true.1 hany
        have hsome : (defs.find? (·.name == name)).isSome :=
          List.find?_isSome.2 ⟨e, he, by rw [eq_of_beq hname]; exact hd⟩
        rw [Option.or_of_isSome hsome, Option.or_of_isSome hsome]
      · rfl
    · rw [List.append_assoc, List.singleton_append]

theorem nodup_foldl_insert {defs : List ModuleDef} (h : (defs.map name).Nodup)
    (ds : List ModuleDef) : ((ds.foldl insert defs).map name).Nodup := by
  induction ds generalizing defs with
  | nil => exact h
  | cons d ds ih =>
    refine ih ?_
    rw [insert]
    split
    · exact h
    · next hnone =>
      rw [List.map_append, List.map_singleton]
      refine List.nodup_append.2 ⟨h, List.nodup_singleton _, fun a ha b hb hab => hnone ?_⟩
      obtain ⟨e, he, rfl⟩ := List.mem_map.1 ha
      rw [List.mem_singleton.1 hb] at hab
      exact List.any_eq_true.2 ⟨e, he, beq_iff_eq.2 hab⟩

/-- Among definitions whose names differ, each is the one that is found by its name. -/
theorem mem_iff_find?_eq_some {defs : List ModuleDef} (h : (defs.map name).Nodup) {d : ModuleDef} :
    d ∈ defs ↔ defs.find? (·.name == d.name) = some d := by
  refine ⟨fun hd => ?_, List.mem_of_find?_eq_some⟩
  obtain ⟨e, he⟩ := Option.isSome_iff_exists.1 <|
    (List.find?_isSome (p := (·.name == d.name))).2 ⟨d, hd, beq_self_eq_true d.name⟩
  have hname := List.find?_some he
  rw [he, List.inj_on_of_nodup_map h (List.mem_of_find?_eq_some he) hd (beq_iff_eq.1 hname)]

end ModuleDef

/-! ## Where modules stand -/

/-- A module that starts with its type has one. -/
theorem ModuleView.isSome_typeName? {v : ModuleView} (h : v.cursor.node.toElement.Typed) :
    v.typeName?.isSome := by
  have hnode : v.cursor.node.toElement =
      .node v.cursor.id .blueprint v.cursor.span v.cursor.node.children :=
    congrArg (Element.node _ · _ _) v.kind_eq
  obtain ⟨j, s, t, cs, hkind, hchildren⟩ := h _ _ _ hnode
  let c : Cursor := ⟨⟨j, .blueprintType, s, [.token t]⟩, v.cursor.node :: v.cursor.above⟩
  have htype : v.moduleType? = some ⟨c, rfl⟩ := by
    rw [moduleType?, View.child?, childNodes_eq, hchildren]
    rfl
  have htoken : ModuleTypeView.token? ⟨c, rfl⟩ = some t := by
    rw [ModuleTypeView.token?, View.token?, firstToken?, childTokens_eq]
    exact List.find?_cons_of_pos (beq_iff_eq.2 hkind)
  rw [typeName?, htype, Option.bind_some, ModuleTypeView.name?, htoken]
  rfl

namespace NodeKind

/-- What can hold a module can stand in nothing. -/
theorem Path.length_le_of_blueprint {depth : Nat} {above : List NodeKind}
    (H : Path depth (.blueprint :: above)) : above.length ≤ 1 := by
  have hfile (parent : NodeKind) : .node .blueprint ∈ parent.form.atoms → parent = .file := by
    cases parent <;> decide
  have hroot (parent : NodeKind) : .node .file ∉ parent.form.atoms := by
    cases parent <;> decide
  match above, H.chain with
  | [], _ => exact Nat.zero_le _
  | [_], _ => exact Nat.le_refl _
  | p :: q :: _, .cons_cons h (.cons_cons h' _) =>
    rw [hfile p h] at h'
    exact absurd h' (hroot q)

end NodeKind

/-- Nodes of a kind that only stands at the top of a forest are the ones at the top. -/
theorem Cursor.filterMap_as?_ofElements {kind : NodeKind} {above : List Node} {es : List Element}
    (h : ∀ c ∈ ofElements above es, c.kind = kind → c.above.length ≤ above.length) :
    (ofElements above es).filterMap (·.as? kind) =
      (es.filterMap (atNode? above)).filterMap (·.as? kind) := by
  induction es with
  | nil => rfl
  | cons e es ih =>
    have ih := ih fun c hc => h c (List.mem_append_right _ hc)
    cases e with
    | token => exact ih
    | node i k s cs =>
      have hbelow : (ofElements (⟨i, k, s, cs⟩ :: above) cs).filterMap (·.as? kind) = [] := by
        refine List.filterMap_eq_nil_iff.2 fun c hc => dif_neg fun hkind => ?_
        have hle := h c (List.mem_append_left _ (.tail _ hc)) hkind
        have hlt := (upward_suffix_ancestors hc).length_le
        rw [ancestors, length_upward, length_upward, List.length_cons] at hlt
        exact absurd hle (Nat.not_le.2 hlt)
      rw [ofElements, ofElement, List.filterMap_append, List.filterMap_cons, hbelow, ih]
      simp only [List.filterMap_cons, atNode?]
      split <;> rfl

/-! ## Looking up modules -/

namespace FileView

variable {file : FileView} {name : String} {v : ModuleView}

/-- The module that a name means in a file is the first of that name. -/
theorem moduleNamed?_eq_some_iff : file.moduleNamed? name = some v ↔
    ∃ front back, file.modules = front ++ v :: back ∧ v.name? = some name ∧
      ∀ w ∈ front, w.name? ≠ some name := by
  rw [moduleNamed?, List.find?_eq_some_iff_append]
  constructor
  · rintro ⟨hname, front, back, hsplit, hfront⟩
    exact ⟨front, back, hsplit, beq_iff_eq.1 hname, fun w hw => by simpa using hfront w hw⟩
  · rintro ⟨front, back, hsplit, hname, hfront⟩
    exact ⟨beq_iff_eq.2 hname, front, back, hsplit, fun w hw => by simpa using hfront w hw⟩

variable (htyped : ∀ v ∈ file.modules, (ModuleView.typeName? v).isSome)
include htyped

theorem exists_typeName? (h : file.moduleNamed? name = some v) :
    ∃ typeName, v.typeName? = some typeName ∧ v.name? = some name := by
  obtain ⟨front, back, hsplit, hname, -⟩ := moduleNamed?_eq_some_iff.1 h
  have hv : v ∈ file.modules := hsplit ▸ List.mem_append_right _ (.head _)
  obtain ⟨typeName, htype⟩ := Option.isSome_iff_exists.1 (htyped v hv)
  exact ⟨typeName, htype, hname⟩

/-- When all modules have types, a name means in the scope what it means in the file. -/
theorem resolveModule?_eq (name : String) :
    (Scope.ofFile file).resolveModule? name =
      (file.moduleNamed? name).bind ModuleDef.ofView? := by
  rw [Scope.resolveModule?, Scope.ofFile, ModuleDef.find?_foldl_insert, List.nil_append, moduleNamed?]
  refine List.find?_filterMap.trans (congrArg (Option.bind · _) (List.find?_congr fun v hv => ?_))
  obtain ⟨typeName, htype⟩ := Option.isSome_iff_exists.1 (htyped v hv)
  cases hname : v.name? <;> simp [ModuleDef.ofView?, htype, hname]

theorem resolveModule?_eq_some_iff {d : ModuleDef} :
    (Scope.ofFile file).resolveModule? name = some d ↔ ∃ v, file.moduleNamed? name = some v ∧
      v.typeName? = some d.typeName ∧ d.name = name ∧ d.span = v.span := by
  rw [resolveModule?_eq htyped, Option.bind_eq_some_iff]
  refine exists_congr fun v => and_congr_right fun hv => ?_
  obtain ⟨-, -, hname⟩ := exists_typeName? htyped hv
  rw [ModuleDef.ofView?_eq_some_iff, hname, Option.some.injEq, eq_comm (a := name),
    eq_comm (a := v.span)]

/-- A name means a module in the scope when it means one in the file. -/
theorem isSome_resolveModule? (name : String) :
    ((Scope.ofFile file).resolveModule? name).isSome = (file.moduleNamed? name).isSome := by
  rw [resolveModule?_eq htyped]
  cases hv : file.moduleNamed? name with
  | none => rfl
  | some v =>
    obtain ⟨typeName, htype, hname⟩ := exists_typeName? htyped hv
    simp [ModuleDef.ofView?, htype, hname]

/-- Each module has one listing, in the same order. -/
theorem forall₂_listings (path : String) :
    List.Forall₂ (fun v l => l.file = path ∧ v.typeName? = some l.typeName ∧ l.name = v.name? ∧
        l.line = v.span.line ∧ l.column = v.span.column)
      file.modules (file.modules.filterMap (Modules.Listing.ofView? path)) := by
  generalize file.modules = vs at htyped
  induction vs with
  | nil => exact .nil
  | cons v vs ih =>
    obtain ⟨typeName, htype⟩ := Option.isSome_iff_exists.1 (htyped v (.head _))
    have hlisting : Modules.Listing.ofView? path v =
        some ⟨path, typeName, v.name?, v.span.line, v.span.column⟩ := by
      rw [Modules.Listing.ofView?, htype]
      rfl
    rw [List.filterMap_cons_some hlisting]
    exact .cons ⟨rfl, htype, rfl, rfl, rfl⟩ (ih fun w hw => htyped w (.tail _ hw))

/-- The first listing of a name tells of the module that the name means. -/
theorem find?_listings (path name : String) :
    (file.modules.filterMap (Modules.Listing.ofView? path)).find? (·.name == some name) =
      ((Scope.ofFile file).resolveModule? name).map fun d =>
        ⟨path, d.typeName, some d.name, d.span.line, d.span.column⟩ := by
  have hfind :
      (file.modules.filterMap (Modules.Listing.ofView? path)).find? (·.name == some name) =
        (file.moduleNamed? name).bind (Modules.Listing.ofView? path) := by
    refine List.find?_filterMap.trans (congrArg (Option.bind · _) (List.find?_congr fun v hv => ?_))
    obtain ⟨typeName, htype⟩ := Option.isSome_iff_exists.1 (htyped v hv)
    simp [Modules.Listing.ofView?, htype]
  rw [hfind, resolveModule?_eq htyped]
  cases hv : file.moduleNamed? name with
  | none => rfl
  | some v =>
    obtain ⟨typeName, htype, hname⟩ := exists_typeName? htyped hv
    simp [Modules.Listing.ofView?, ModuleDef.ofView?, htype, hname]

end FileView

/-! ## The modules of a text -/

/-- The elements in a file are what its rule emits. -/
theorem root_children_eq (source : String) (limits : Limits) :
    (parse source limits).tree.root.children =
      (Rule.fileBody limits limits.maxDepth (State.start source)).emitted := rfl

theorem typed_of_mem_root {source : String} {limits : Limits} {e : Element}
    (he : e ∈ (parse source limits).tree.root.children) : e.Typed := by
  rw [root_children_eq, Rule.fileBody_apply] at he
  rcases List.mem_append.1 he with he | he
  · exact Rule.types_contents limits _ _ (State.wf_start source) e he
  · rcases List.mem_append.1 he with he | he
    · exact typed_of_mem_map_token he
    · rw [List.mem_singleton.1 he]
      exact typed_token _

/-- No module of a text stands below a child of the root. -/
theorem length_above_le_one {source : String} {limits : Limits} {c : Cursor}
    (hc : c ∈ ofElements [(parse source limits).tree.root] (parse source limits).tree.root.children)
    (hkind : c.kind = .blueprint) : c.above.length ≤ 1 := by
  have hpath : Everywhere (fun kind above _ => NodeKind.Path limits.maxDepth (kind :: above)) [.file]
      (parse source limits).tree.root.children := by
    rw [root_children_eq, Rule.fileBody_apply]
    exact (Rule.follows_contents limits (State.wf_start source)).2.everywhere.append
      ((Everywhere.map_token _).append (.token .nil))
  have h := @Everywhere.of_mem_ofElements _ _ [(parse source limits).tree.root] hpath c hc
  rw [hkind] at h
  exact (List.length_map _).symm.trans_le h.length_le_of_blueprint

/-- The module nodes of the tree of a text are the modules of its file. -/
theorem filterMap_cursors_eq_modules {source : String} {limits : Limits} {file : FileView}
    (hfile : (parse source limits).tree.file? = some file) :
    (parse source limits).tree.cursors.filterMap (·.as? .blueprint) = file.modules := by
  have hroot : (parse source limits).tree.cursor.as? .blueprint = none := dif_neg nofun
  have htop := filterMap_as?_ofElements fun c => @length_above_le_one source limits c
  rw [FileView.modules, View.children, as?_eq_some_iff.1 hfile, childNodes_eq, Tree.cursors_eq_cons,
    List.filterMap_cons, hroot]
  exact htop

/-- The modules of a text, from its file, its scope and its listing. All module nodes of the tree
are in the file, one after the other, and have types. In the file and in the scope a name means the
first module of that name, and the scope has no other. The listing has one entry for each module, and
the first entry of a name tells of the module that the name means. -/
structure FileView.ModulesAgree (source : String) (limits : Limits) (file : FileView) : Prop where
  nodes : (parse source limits).tree.cursors.filterMap (·.as? .blueprint) = file.modules
  disjoint : file.modules.Pairwise (·.span.stop ≤ ·.span.start)
  typed : ∀ v : ModuleView, v.cursor ∈ (parse source limits).tree.cursors → v.typeName?.isSome
  named : ∀ name v, file.moduleNamed? name = some v ↔
    ∃ front back, file.modules = front ++ v :: back ∧ v.name? = some name ∧
      ∀ w ∈ front, w.name? ≠ some name
  resolved : ∀ name, ((Scope.ofFile file).resolveModule? name).isSome =
    (file.moduleNamed? name).isSome
  resolves : ∀ name d, (Scope.ofFile file).resolveModule? name = some d ↔
    ∃ v, file.moduleNamed? name = some v ∧ v.typeName? = some d.typeName ∧ d.name = name ∧
      d.span = v.span
  scope : ∀ d, d ∈ (Scope.ofFile file).modules ↔
    (Scope.ofFile file).resolveModule? d.name = some d
  once : ((Scope.ofFile file).modules.map ModuleDef.name).Nodup
  listed : ∀ path, List.Forall₂ (fun v l => l.file = path ∧ v.typeName? = some l.typeName ∧
      l.name = v.name? ∧ l.line = v.span.line ∧ l.column = v.span.column)
    file.modules (Modules.ofText path source limits)
  first : ∀ path name, (Modules.ofText path source limits).find? (·.name == some name) =
    ((Scope.ofFile file).resolveModule? name).map fun d =>
      ⟨path, d.typeName, some d.name, d.span.line, d.span.column⟩

/-- Whatever the limits are, the modules of a text are the same in its file, its scope and its
listing. -/
theorem parse_modules (source : String) (limits : Limits) :
    ∃ file, (parse source limits).tree.file? = some file ∧
      FileView.ModulesAgree source limits file := by
  let file : FileView := ⟨(parse source limits).tree.cursor, rfl⟩
  have hfile : (parse source limits).tree.file? = some file := as?_eq_some_iff.2 rfl
  have hnodes := filterMap_cursors_eq_modules hfile
  have htyped : ∀ v ∈ file.modules, (ModuleView.typeName? v).isSome := fun v hv =>
    ModuleView.isSome_typeName? (typed_of_mem_root (View.toElement_mem_of_mem_children hv))
  have hlisted (path : String) : Modules.ofText path source limits =
      file.modules.filterMap (Modules.Listing.ofView? path) := by
    rw [Modules.ofText, hfile]
  have honce : ((Scope.ofFile file).modules.map ModuleDef.name).Nodup :=
    @ModuleDef.nodup_foldl_insert [] List.nodup_nil _
  refine ⟨file, hfile, ?_⟩
  constructor
  case nodes => exact hnodes
  case disjoint =>
    obtain ⟨es, q, hroot, H, -⟩ := exists_root source limits
    refine View.pairwise_children (r := fun a b => a.stop ≤ b.start) ?_
    rw [show file.cursor.node.children = es from congrArg Node.children hroot]
    exact H.pairwise_disjoint
  case typed =>
    intro v hv
    exact htyped v (hnodes ▸ List.mem_filterMap.2 ⟨v.cursor, hv, as?_eq_some_iff.2 rfl⟩)
  case named => exact fun name v => FileView.moduleNamed?_eq_some_iff
  case resolved => exact FileView.isSome_resolveModule? htyped
  case resolves => exact fun name d => FileView.resolveModule?_eq_some_iff htyped
  case scope => exact fun d => ModuleDef.mem_iff_find?_eq_some honce
  case once => exact honce
  case listed =>
    intro path
    rw [hlisted]
    exact FileView.forall₂_listings htyped path
  case first =>
    intro path name
    rw [hlisted]
    exact FileView.find?_listings htyped path name

end Blueprint
