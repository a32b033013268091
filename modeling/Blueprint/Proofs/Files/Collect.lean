import Mathlib.Data.List.Forall2
import Blueprint.Proofs.Files.Search

/-!
# Collected files

An argument that is a file stands for itself, and one that is a directory for the module files below
it, in the order of their paths and each once; whatever order the directories list their entries in,
and unless an argument does not exist (`collect_finds`).
-/

namespace Blueprint

open Files

namespace Argument

/-- Something stands at the path. -/
def Exists (a : Argument) : Prop := ∃ e, a.entry = .ok e

def WellFormed (a : Argument) : Prop := ∀ e, a.entry = .ok e → e.WellFormed

/-- The same argument, apart from the order in which directories list their entries. -/
inductive Reordered : Argument → Argument → Prop where
  | missing (path : String) (cause : ReadFailure) :
      Reordered ⟨path, .error cause⟩ ⟨path, .error cause⟩
  | entry (path : String) {e e' : Entry} (h : e.Reordered e') :
      Reordered ⟨path, .ok e⟩ ⟨path, .ok e'⟩

theorem Reordered.path_eq {a a' : Argument} (h : a.Reordered a') : a'.path = a.path := by
  cases h <;> rfl

theorem Reordered.exists_iff {a a' : Argument} (h : a.Reordered a') : a'.Exists ↔ a.Exists := by
  cases h with
  | missing => rfl
  | entry => exact iff_of_true ⟨_, rfl⟩ ⟨_, rfl⟩

end Argument

namespace Files

open Entry

variable {path : String} {entries entries' : List (String × Entry)} {args args' : List Argument}

/-! ### Directories -/

theorem inDirectory_eq (path : String) (entries : List (String × Entry)) :
    inDirectory path entries =
      (found entries).map fun f => ⟨join path f.names, .ok (.file f.content)⟩ :=
  rfl

/-- The files are those that a directory argument stands for: the wanted ones below the directory,
in the order of their paths, and no two with the same path. -/
structure Listing (path : String) (entries : List (String × Entry)) (files : List Argument) :
    Prop where
  paths : (files.map Argument.path).Nodup
  found : ∃ fs : List Found,
    files = fs.map (fun f => ⟨join path f.names, .ok (.file f.content)⟩) ∧
      fs.Pairwise (·.names < ·.names) ∧
      ∀ f, f ∈ fs ↔ Below (.directory entries) f.names f.content ∧ IsWanted f.names

theorem listing_inDirectory (path : String) (h : (Entry.directory entries).WellFormed) :
    Listing path entries (inDirectory path entries) := by
  refine ⟨?_, found entries, rfl, sorted_found h, mem_found entries⟩
  rw [inDirectory_eq, List.map_map]
  refine List.pairwise_map.2 ((List.pairwise_map.1 (nodup_found h)).imp_of_mem ?_)
  intro f g hf hg hne heq
  have hf := ((mem_found entries f).1 hf).1
  have hg := ((mem_found entries g).1 hg).1
  exact hne (join_injOn path (hf.isName h) hf.ne_nil (hg.isName h) hg.ne_nil heq)

theorem inDirectory_congr (path : String) (h : (Entry.directory entries).WellFormed)
    (hreordered : (Entry.directory entries).Reordered (.directory entries')) :
    inDirectory path entries = inDirectory path entries' := by
  rw [inDirectory_eq, inDirectory_eq,
    found_congr h (hreordered.wellFormed h) hreordered.below_iff]

/-! ### Arguments -/

/-- The files that an argument stands for. -/
inductive StandsFor : Argument → List Argument → Prop where
  | file (path : String) (content : ByteArray) :
      StandsFor ⟨path, .ok (.file content)⟩ [⟨path, .ok (.file content)⟩]
  | directory {path : String} {entries : List (String × Entry)} {files : List Argument}
      (h : Listing path entries files) : StandsFor ⟨path, .ok (.directory entries)⟩ files

/-- The part of an argument in what is collected. -/
def filesOf (a : Argument) : List Argument :=
  match a.entry with
  | .error _ => []
  | .ok (.file content) => [⟨a.path, .ok (.file content)⟩]
  | .ok (.directory entries) => inDirectory a.path entries

theorem standsFor_filesOf {a : Argument} (ha : a.Exists) (hwf : a.WellFormed) :
    StandsFor a (filesOf a) := by
  obtain ⟨path, entry⟩ := a
  obtain ⟨e, rfl⟩ := ha
  cases e with
  | file content => exact .file path content
  | directory entries => exact .directory (listing_inDirectory path (hwf _ rfl))

theorem collect_cons {a : Argument} (ha : a.Exists) (args : List Argument) :
    collect (a :: args) = (collect args).map (filesOf a ++ ·) := by
  obtain ⟨path, entry⟩ := a
  obtain ⟨e, rfl⟩ := ha
  cases e <;> cases h : collect args <;> simp only [collect, h] <;> rfl

theorem collect_cons_missing {a : Argument} (ha : ¬ a.Exists) (args : List Argument) :
    collect (a :: args) = .error (.notFound a.path) := by
  obtain ⟨path, cause | e⟩ := a
  · rfl
  · exact absurd ⟨e, rfl⟩ ha

theorem collect_exist (hexist : ∀ a ∈ args, a.Exists) :
    collect args = .ok (args.map filesOf).flatten := by
  induction args with
  | nil => rfl
  | cons a args ih =>
    rw [List.forall_mem_cons] at hexist
    rw [collect_cons hexist.1, ih hexist.2]
    rfl

/-- The first argument that does not exist ends the collection. -/
theorem collect_missing (h : ∃ a ∈ args, ¬ a.Exists) :
    ∃ before a after, args = before ++ a :: after ∧ (∀ b ∈ before, b.Exists) ∧ ¬ a.Exists ∧
      collect args = .error (.notFound a.path) := by
  induction args with
  | nil =>
    obtain ⟨_, h, -⟩ := h
    cases h
  | cons a args ih =>
    by_cases ha : a.Exists
    · have hrest : ∃ a ∈ args, ¬ a.Exists := by
        obtain ⟨b, hb, hmissing⟩ := h
        rcases List.mem_cons.1 hb with rfl | hb
        · exact absurd ha hmissing
        · exact ⟨b, hb, hmissing⟩
      obtain ⟨before, b, after, rfl, hbefore, hmissing, hcollect⟩ := ih hrest
      refine ⟨a :: before, b, after, rfl, List.forall_mem_cons.2 ⟨ha, hbefore⟩, hmissing, ?_⟩
      rw [collect_cons ha, hcollect]
      rfl
    · exact ⟨[], a, args, rfl, fun _ h => absurd h List.not_mem_nil, ha,
        collect_cons_missing ha args⟩

/-! ### Arguments in another order -/

theorem filesOf_reordered {a a' : Argument} (h : a.Reordered a') (hwf : a.WellFormed) :
    filesOf a' = filesOf a := by
  cases h with
  | missing => rfl
  | entry path h =>
    rcases h.eq_or_directories with rfl | ⟨entries, entries', rfl, rfl⟩
    · rfl
    · exact (inDirectory_congr path (hwf _ rfl) h).symm

theorem collect_reordered (h : List.Forall₂ Argument.Reordered args args')
    (hwf : ∀ a ∈ args, a.WellFormed) : collect args' = collect args := by
  induction h with
  | nil => rfl
  | @cons a a' args args' ha _ ih =>
    rw [List.forall_mem_cons] at hwf
    by_cases hexists : a.Exists
    · rw [collect_cons (ha.exists_iff.2 hexists), collect_cons hexists, ih hwf.2,
        filesOf_reordered ha hwf.1]
    · rw [collect_cons_missing (mt ha.exists_iff.1 hexists),
        collect_cons_missing hexists, ha.path_eq]

/-- Collecting files: when all arguments exist, each gives the files that it stands for, and
otherwise it fails for the first one that does not; whatever order the directories list their
entries in. -/
theorem collect_finds (args : List Argument) (hwf : ∀ a ∈ args, a.WellFormed) :
    ((∀ a ∈ args, a.Exists) →
        ∃ parts, collect args = .ok parts.flatten ∧ List.Forall₂ StandsFor args parts) ∧
      ((∃ a ∈ args, ¬ a.Exists) → ∃ before a after, args = before ++ a :: after ∧
        (∀ b ∈ before, b.Exists) ∧ ¬ a.Exists ∧ collect args = .error (.notFound a.path)) ∧
      ∀ args', List.Forall₂ Argument.Reordered args args' → collect args' = collect args := by
  refine ⟨fun hexist => ?_, collect_missing, fun _ h => collect_reordered h hwf⟩
  refine ⟨args.map filesOf, collect_exist hexist, ?_⟩
  rw [List.forall₂_map_right_iff]
  exact List.forall₂_same.2 fun a ha => standsFor_filesOf (hexist a ha) (hwf a ha)

/-- A directory with build output beside a module file is collected in either order, behind it a
file of another kind; a path where nothing is ends the collection. -/
theorem collect_finds_output :
    let file : Entry := .file .empty
    let output : Entry := .directory [("b.bp", file)]
    let source : Argument := ⟨"src", .ok (.directory [("out", output), ("a.bp", file)])⟩
    let source' : Argument := ⟨"src", .ok (.directory [("a.bp", file), ("out", output)])⟩
    let text : Argument := ⟨"a.txt", .ok file⟩
    let gone : Argument := ⟨"gone", .error .missing⟩
    (∃ parts, collect [source, text] = .ok parts.flatten ∧
        List.Forall₂ StandsFor [source, text] parts) ∧
      collect [source', text] = collect [source, text] ∧
      ∃ path, collect [source, gone] = .error (.notFound path) := by
  intro file output source source' text gone
  have hname (name : String) (h : name ≠ "" ∧ '/' ∉ name.toList) : IsName name := ⟨h.1, h.2⟩
  have houtput : output.WellFormed :=
    .directory (by decide) (by simpa using hname "b.bp" (by decide)) (by simpa using .file _)
  have hsource : source.WellFormed := by
    intro e he
    cases he
    refine .directory (by decide) ?_ ?_
    · simpa using ⟨hname "out" (by decide), hname "a.bp" (by decide)⟩
    · simpa using ⟨houtput, .file _⟩
  have htext : text.WellFormed := by
    intro e he
    cases he
    exact .file _
  have hgone : gone.WellFormed := fun e he => nomatch he
  obtain ⟨hexist, -, hreordered⟩ := collect_finds [source, text] (by simp [hsource, htext])
  obtain ⟨-, hmissing, -⟩ := collect_finds [source, gone] (by simp [hsource, hgone])
  refine ⟨hexist ?_, hreordered _ ?_, ?_⟩
  · simpa using ⟨⟨_, rfl⟩, ⟨_, rfl⟩⟩
  · exact .cons (.entry _ (.list (.swap _ _ _))) (.cons (.entry _ (.refl _)) .nil)
  · obtain ⟨_, a, _, -, -, -, h⟩ := hmissing ⟨gone, by simp, fun ⟨_, h⟩ => nomatch h⟩
    exact ⟨a.path, h⟩

end Files

end Blueprint
