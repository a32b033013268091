import Mathlib.Data.List.Nodup
import Blueprint.Proofs.Files.Names

/-!
# The search of directories

A search finds the module files below a directory, apart from those behind a directory that it skips
(`mem_searchAll`), and no two with the same names (`nodup_searchAll`). Sorted, what is found depends
only on which files are below the directory (`found_congr`), so not on the order in which
directories list their entries (`Reordered.below_iff`).
-/

namespace Blueprint

open Files

namespace Entry

/-- The entries of each directory have names, and no two the same. -/
inductive WellFormed : Entry → Prop where
  | file (content : ByteArray) : WellFormed (.file content)
  | directory {entries : List (String × Entry)} (distinct : (entries.map Prod.fst).Nodup)
      (names : ∀ p ∈ entries, IsName p.1) (inside : ∀ p ∈ entries, WellFormed p.2) :
      WellFormed (.directory entries)

/-- The names lead from the entry to a file with this content. -/
inductive Below : Entry → List String → ByteArray → Prop where
  | here {content : ByteArray} : Below (.file content) [] content
  | inside {entries : List (String × Entry)} {name : String} {e : Entry} {names : List String}
      {content : ByteArray} (hmem : (name, e) ∈ entries) (h : Below e names content) :
      Below (.directory entries) (name :: names) content

/-- The same tree, apart from the order in which directories list their entries. -/
inductive Reordered : Entry → Entry → Prop where
  | refl (e : Entry) : Reordered e e
  | list {entries entries' : List (String × Entry)} (h : entries.Perm entries') :
      Reordered (.directory entries) (.directory entries')
  | inside {before after : List (String × Entry)} {name : String} {e e' : Entry}
      (h : Reordered e e') :
      Reordered (.directory (before ++ (name, e) :: after))
        (.directory (before ++ (name, e') :: after))
  | trans {e e' e'' : Entry} (h : Reordered e e') (h' : Reordered e' e'') : Reordered e e''

variable {e e' : Entry} {entries rest : List (String × Entry)} {name : String}
  {names : List String} {content content' : ByteArray}

/-! ### Files below an entry -/

theorem below_file_iff :
    Below (.file content) names content' ↔ names = [] ∧ content' = content := by
  constructor
  · rintro ⟨⟩
    exact ⟨rfl, rfl⟩
  · rintro ⟨rfl, rfl⟩
    exact .here

theorem not_below_empty : ¬ Below (.directory []) names content := by
  rintro ⟨⟩
  contradiction

theorem below_directory_cons_iff :
    Below (.directory ((name, e) :: rest)) names content ↔
      (∃ inner, names = name :: inner ∧ Below e inner content) ∨
        Below (.directory rest) names content := by
  constructor
  · intro h
    cases h with
    | inside hmem h =>
      rcases List.mem_cons.1 hmem with hhead | hmem
      · cases hhead
        exact .inl ⟨_, rfl, h⟩
      · exact .inr (.inside hmem h)
  · rintro (⟨inner, rfl, h⟩ | h)
    · exact .inside (.head _) h
    · cases h with
      | inside hmem h => exact .inside (.tail _ hmem) h

/-- The names that lead out of a directory begin with one that it lists. -/
theorem Below.exists_cons (h : Below (.directory entries) names content) :
    ∃ name inner, names = name :: inner ∧ name ∈ entries.map Prod.fst := by
  cases h with
  | inside hmem _ => exact ⟨_, _, rfl, List.mem_map_of_mem hmem⟩

theorem Below.ne_nil (h : Below (.directory entries) names content) : names ≠ [] := by
  obtain ⟨_, _, rfl, -⟩ := h.exists_cons
  exact List.cons_ne_nil _ _

theorem Below.isName (h : Below e names content) (hwf : e.WellFormed) :
    ∀ name ∈ names, IsName name := by
  induction h with
  | here => exact fun _ h => absurd h List.not_mem_nil
  | inside hmem _ ih =>
    cases hwf with
    | directory _ hnames hinside =>
      intro n hn
      rcases List.mem_cons.1 hn with rfl | hn
      · exact hnames _ hmem
      · exact ih (hinside _ hmem) n hn

/-! ### Trees in another order -/

namespace Reordered

theorem symm (h : Reordered e e') : Reordered e' e := by
  induction h with
  | refl e => exact .refl e
  | list h => exact .list h.symm
  | inside _ ih => exact .inside ih
  | trans _ _ ih ih' => exact .trans ih' ih

theorem below_of_below (h : Reordered e e') (hbelow : Below e names content) :
    Below e' names content := by
  induction h generalizing names with
  | refl => exact hbelow
  | list h =>
    cases hbelow with
    | inside hmem hbelow => exact .inside (h.mem_iff.1 hmem) hbelow
  | inside _ ih =>
    cases hbelow with
    | inside hmem hbelow =>
      rcases List.mem_append.1 hmem with hmem | hmem
      · exact .inside (List.mem_append_left _ hmem) hbelow
      · rcases List.mem_cons.1 hmem with hhead | hmem
        · cases hhead
          exact .inside (List.mem_append_right _ (.head _)) (ih hbelow)
        · exact .inside (List.mem_append_right _ (.tail _ hmem)) hbelow
  | trans _ _ ih ih' => exact ih' (ih hbelow)

theorem below_iff (h : Reordered e e') (names : List String) (content : ByteArray) :
    Below e names content ↔ Below e' names content :=
  ⟨h.below_of_below, h.symm.below_of_below⟩

theorem wellFormed (h : Reordered e e') (hwf : e.WellFormed) : e'.WellFormed := by
  induction h with
  | refl => exact hwf
  | list h =>
    cases hwf with
    | directory hdistinct hnames hinside =>
      exact .directory ((h.map _).nodup_iff.1 hdistinct) (fun p hp => hnames p (h.mem_iff.2 hp))
        fun p hp => hinside p (h.mem_iff.2 hp)
  | @inside before after name e e' _ ih =>
    cases hwf with
    | directory hdistinct hnames hinside =>
      have hmap : (before ++ (name, e') :: after).map Prod.fst =
          (before ++ (name, e) :: after).map Prod.fst := by
        rw [List.map_append, List.map_append]
        rfl
      rw [List.forall_mem_append, List.forall_mem_cons] at hnames hinside
      obtain ⟨hbefore, hname, hafter⟩ := hnames
      obtain ⟨hbefore', he, hafter'⟩ := hinside
      exact .directory (hmap ▸ hdistinct)
        (List.forall_mem_append.2 ⟨hbefore, List.forall_mem_cons.2 ⟨hname, hafter⟩⟩)
        (List.forall_mem_append.2 ⟨hbefore', List.forall_mem_cons.2 ⟨ih he, hafter'⟩⟩)
  | trans _ _ ih ih' => exact ih' (ih hwf)

/-- Only directories differ in their order. -/
theorem eq_or_directories (h : Reordered e e') :
    e = e' ∨ ∃ entries entries', e = .directory entries ∧ e' = .directory entries' := by
  induction h with
  | refl => exact .inl rfl
  | list => exact .inr ⟨_, _, rfl, rfl⟩
  | inside => exact .inr ⟨_, _, rfl, rfl⟩
  | trans _ _ ih ih' =>
    rcases ih with rfl | ⟨entries, _, rfl, rfl⟩
    · exact ih'
    · rcases ih' with rfl | ⟨_, entries', _, rfl⟩
      · exact .inr ⟨_, _, rfl, rfl⟩
      · exact .inr ⟨_, _, rfl, rfl⟩

end Reordered

end Entry

namespace Files

open Entry

/-! ### What a search finds -/

theorem Found.ext {f g : Found} (hnames : f.names = g.names) (hcontent : f.content = g.content) :
    f = g := by
  cases f
  cases g
  cases hnames
  cases hcontent
  rfl

/-- A file that a search takes: no directory on the way to it is hidden or for build output, and it
has the ending of module files. -/
structure IsWanted (names : List String) : Prop where
  directories : ∀ d ∈ names.dropLast, d.toList.head? ≠ some '.' ∧ d ≠ "out"
  file : ∃ stem, stem ≠ "" ∧ names.getLast? = some (stem ++ ".bp")

variable {entries entries' : List (String × Entry)} {name : String}

theorem isSkipped_eq_false_iff :
    isSkipped name = false ↔ name.toList.head? ≠ some '.' ∧ name ≠ "out" := by
  rw [isSkipped, Bool.or_eq_false_iff, beq_eq_false_iff_ne, beq_eq_false_iff_ne]

theorem isWanted_singleton_iff : IsWanted [name] ↔ isModuleFile name = true := by
  rw [isModuleFile_iff]
  constructor
  · rintro ⟨-, stem, hstem, hname⟩
    exact ⟨stem, hstem, Option.some.inj hname⟩
  · rintro ⟨stem, hstem, rfl⟩
    exact ⟨fun _ h => absurd h List.not_mem_nil, stem, hstem, rfl⟩

theorem isWanted_cons_iff {names : List String} (h : names ≠ []) :
    IsWanted (name :: names) ↔ isSkipped name = false ∧ IsWanted names := by
  obtain ⟨next, names, rfl⟩ := List.exists_cons_of_ne_nil h
  rw [isSkipped_eq_false_iff]
  constructor
  · rintro ⟨hdirectories, stem, hstem, hlast⟩
    rw [List.dropLast_cons_cons, List.forall_mem_cons] at hdirectories
    exact ⟨hdirectories.1, hdirectories.2, stem, hstem, hlast⟩
  · rintro ⟨hname, hdirectories, stem, hstem, hlast⟩
    refine ⟨?_, stem, hstem, hlast⟩
    rw [List.dropLast_cons_cons, List.forall_mem_cons]
    exact ⟨hname, hdirectories⟩

mutual
/-- The search of an entry finds the wanted files at and below it. -/
theorem mem_search (inside : List String) (name : String) (e : Entry) (f : Found) :
    f ∈ search inside name e ↔
      ∃ names, f.names = inside ++ name :: names ∧ Below e names f.content ∧
        IsWanted (name :: names) := by
  cases e with
  | file content =>
    rw [search]
    split
    · next h =>
      rw [List.mem_singleton]
      constructor
      · rintro rfl
        exact ⟨[], rfl, .here, isWanted_singleton_iff.2 h⟩
      · rintro ⟨names, hnames, hbelow, -⟩
        obtain ⟨rfl, hcontent⟩ := below_file_iff.1 hbelow
        exact Found.ext hnames hcontent
    · next h =>
      refine iff_of_false List.not_mem_nil ?_
      rintro ⟨names, -, hbelow, hwanted⟩
      obtain ⟨rfl, -⟩ := below_file_iff.1 hbelow
      exact h (isWanted_singleton_iff.1 hwanted)
  | directory entries =>
    rw [search]
    split
    · next h =>
      refine iff_of_false List.not_mem_nil ?_
      rintro ⟨names, -, hbelow, hwanted⟩
      have hname := ((isWanted_cons_iff hbelow.ne_nil).1 hwanted).1
      rw [h] at hname
      cases hname
    · next h =>
      rw [mem_searchAll (inside ++ [name]) entries f]
      constructor
      · rintro ⟨names, hnames, hbelow, hwanted⟩
        refine ⟨names, by rw [hnames, ← List.append_cons], hbelow, ?_⟩
        exact (isWanted_cons_iff hbelow.ne_nil).2 ⟨Bool.eq_false_of_not_eq_true h, hwanted⟩
      · rintro ⟨names, hnames, hbelow, hwanted⟩
        refine ⟨names, by rw [hnames, ← List.append_cons], hbelow, ?_⟩
        exact ((isWanted_cons_iff hbelow.ne_nil).1 hwanted).2

/-- The search of a directory finds the wanted files below it. -/
theorem mem_searchAll (inside : List String) (entries : List (String × Entry)) (f : Found) :
    f ∈ searchAll inside entries ↔
      ∃ names, f.names = inside ++ names ∧ Below (.directory entries) names f.content ∧
        IsWanted names := by
  match entries with
  | [] =>
    refine iff_of_false List.not_mem_nil ?_
    rintro ⟨names, -, hbelow, -⟩
    exact not_below_empty hbelow
  | (name, e) :: rest =>
    rw [searchAll, List.mem_append, mem_search inside name e f, mem_searchAll inside rest f]
    simp only [below_directory_cons_iff]
    constructor
    · rintro (⟨names, hnames, hbelow, hwanted⟩ | ⟨names, hnames, hbelow, hwanted⟩)
      · exact ⟨name :: names, hnames, .inl ⟨names, rfl, hbelow⟩, hwanted⟩
      · exact ⟨names, hnames, .inr hbelow, hwanted⟩
    · rintro ⟨names, hnames, ⟨inner, rfl, hbelow⟩ | hbelow, hwanted⟩
      · exact .inl ⟨inner, hnames, hbelow, hwanted⟩
      · exact .inr ⟨names, hnames, hbelow, hwanted⟩
end

mutual
theorem nodup_search (inside : List String) (name : String) (e : Entry) (h : e.WellFormed) :
    ((search inside name e).map Found.names).Nodup := by
  cases e with
  | file content =>
    rw [search]
    split
    · exact List.nodup_singleton _
    · exact List.nodup_nil
  | directory entries =>
    rw [search]
    split
    · exact List.nodup_nil
    · exact nodup_searchAll _ entries h

/-- No two files found have the same names. -/
theorem nodup_searchAll (inside : List String) (entries : List (String × Entry))
    (h : (Entry.directory entries).WellFormed) :
    ((searchAll inside entries).map Found.names).Nodup := by
  match entries with
  | [] => exact List.nodup_nil
  | (name, e) :: rest =>
    cases h with
    | directory hdistinct hnames hinside =>
      obtain ⟨hname, hdistinct⟩ := List.nodup_cons.1 hdistinct
      obtain ⟨-, hnames⟩ := List.forall_mem_cons.1 hnames
      obtain ⟨he, hinside⟩ := List.forall_mem_cons.1 hinside
      rw [searchAll, List.map_append, List.nodup_append]
      refine ⟨nodup_search inside name e he,
        nodup_searchAll inside rest (.directory hdistinct hnames hinside), ?_⟩
      -- names found in `e` begin with `name`, and those found behind it with another one
      intro fs hfs gs hgs heq
      obtain ⟨f, hf, rfl⟩ := List.mem_map.1 hfs
      obtain ⟨g, hg, rfl⟩ := List.mem_map.1 hgs
      obtain ⟨_, hfnames, -, -⟩ := (mem_search inside name e f).1 hf
      obtain ⟨_, hgnames, hbelow, -⟩ := (mem_searchAll inside rest g).1 hg
      obtain ⟨other, _, rfl, hother⟩ := hbelow.exists_cons
      rw [hfnames, hgnames, List.append_cancel_left_eq] at heq
      cases heq
      exact hname hother
end

/-! ### Files in order -/

/-- The files found below a directory, in the order of their paths. -/
def found (entries : List (String × Entry)) : List Found :=
  (searchAll [] entries).mergeSort fun a b => namesLe a.names b.names

theorem mem_found (entries : List (String × Entry)) (f : Found) :
    f ∈ found entries ↔ Below (.directory entries) f.names f.content ∧ IsWanted f.names := by
  rw [found, (List.mergeSort_perm _ _).mem_iff, mem_searchAll]
  constructor
  · rintro ⟨names, hnames, hbelow, hwanted⟩
    rw [hnames]
    exact ⟨hbelow, hwanted⟩
  · rintro ⟨hbelow, hwanted⟩
    exact ⟨f.names, rfl, hbelow, hwanted⟩

theorem nodup_found (h : (Entry.directory entries).WellFormed) :
    ((found entries).map Found.names).Nodup :=
  ((List.mergeSort_perm _ _).map _).nodup_iff.2 (nodup_searchAll [] entries h)

theorem sorted_found (h : (Entry.directory entries).WellFormed) :
    (found entries).Pairwise (·.names < ·.names) := by
  have hle : (found entries).Pairwise fun f g => namesLe f.names g.names = true :=
    @List.pairwise_mergeSort Found (fun f g => namesLe f.names g.names)
      (fun _ _ _ => namesLe_trans) (fun _ _ => namesLe_total _ _) _
  have hne := List.pairwise_map.1 (nodup_found h)
  refine (hle.and hne).imp fun ⟨hle, hne⟩ => ?_
  exact ((namesLe_iff _ _).1 hle).resolve_right hne

/-- What is found depends only on which files are below the directory. -/
theorem found_congr (h : (Entry.directory entries).WellFormed)
    (h' : (Entry.directory entries').WellFormed)
    (hbelow : ∀ names content, Below (.directory entries) names content ↔
      Below (.directory entries') names content) : found entries = found entries' := by
  have hperm : (found entries).Perm (found entries') := by
    rw [List.perm_ext_iff_of_nodup (nodup_found h).of_map (nodup_found h').of_map]
    intro f
    rw [mem_found, mem_found, hbelow]
  apply hperm.eq_of_pairwise _ (sorted_found h) (sorted_found h')
  exact fun f g _ _ hlt hlt' => absurd hlt' (List.lt_asymm hlt)

end Files

end Blueprint
