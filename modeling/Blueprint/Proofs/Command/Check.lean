import Mathlib.Algebra.GroupWithZero.Nat
import Mathlib.Data.List.Forall2
import Blueprint.Command.Check
import Blueprint.Proofs.Diagnostic
import Blueprint.Proofs.Json

/-!
# Checks are complete

A check of files that can all be read reports every error once, in the order of the files and of
their errors, and its totals agree in both formats; one that meets a file that cannot be read prints
nothing (`checkFiles_complete`). What the loop over the files does up to some file is said once
(`reports_of_reads`).
-/

namespace Blueprint

/-- A file with the text that was read from it. -/
structure TextFile where
  path : String
  text : String

namespace TextFile

def source (f : TextFile) : SourceFile := ⟨f.path, f.text.toList⟩

def errors (f : TextFile) (limits : Limits) : List SyntaxError := (parse f.text limits).errors

end TextFile

namespace Argument

/-- The argument is a file that can be read. -/
structure Reads (a : Argument) (f : TextFile) : Prop where
  path : a.path = f.path
  text : a.readText = .ok f.text

theorem readText_file (path text : String) :
    readText ⟨path, .ok (.file text.toUTF8)⟩ = .ok text := by
  have h : String.fromUTF8? text.toUTF8 = some text := dif_pos text.isValidUTF8
  simp only [readText, h]

theorem exists_text_of_mem {args : List Argument} {files : List TextFile}
    (h : List.Forall₂ Reads args files) {a : Argument} (ha : a ∈ args) :
    ∃ text, a.readText = .ok text := by
  induction h with
  | nil => cases ha
  | cons hread _ ih =>
    rcases List.mem_cons.1 ha with rfl | ha
    · exact ⟨_, hread.text⟩
    · exact ih ha

/-- Either all arguments are files that can be read, or there is a first one that is not. -/
theorem forall₂_reads_or_fails (args : List Argument) :
    (∃ files, List.Forall₂ Reads args files) ∨
      ∃ before a after f files, args = before ++ a :: after ∧ List.Forall₂ Reads before files ∧
        a.readText = .error f := by
  induction args with
  | nil => exact .inl ⟨[], .nil⟩
  | cons a args ih =>
    cases ha : a.readText with
    | error f => exact .inr ⟨[], a, args, f, [], rfl, .nil, ha⟩
    | ok text =>
      have hread : a.Reads ⟨a.path, text⟩ := ⟨rfl, ha⟩
      rcases ih with ⟨files, h⟩ | ⟨before, b, after, f, files, rfl, h, hb⟩
      · exact .inl ⟨_, .cons hread h⟩
      · exact .inr ⟨a :: before, b, after, f, _, rfl, .cons hread h, hb⟩

end Argument

namespace Check

open Argument

variable {limits : Limits} {args before : List Argument} {files : List TextFile}

/-! ### The loop over the files -/

/-- Files that can be read give their reports, and the loop goes on behind them. -/
theorem reports_of_reads (h : List.Forall₂ Reads before files) (rest : List Argument) :
    reports limits (before ++ rest) =
      (files.map (fun f => Report.ofText f.path f.text limits) ++ (reports limits rest).1,
        (reports limits rest).2) := by
  induction h with
  | nil => rfl
  | cons ha _ ih => rw [List.cons_append, reports, ha.text, ih, ha.path]; rfl

theorem reports_of_reads_all (h : List.Forall₂ Reads args files) :
    reports limits args = (files.map (fun f => Report.ofText f.path f.text limits), none) := by
  have h := @reports_of_reads limits _ _ h []
  rwa [List.append_nil, reports, List.append_nil] at h

theorem reports_of_fails (h : List.Forall₂ Reads before files) {a : Argument} {f : Failure}
    (ha : a.readText = .error f) (after : List Argument) :
    reports limits (before ++ a :: after) =
      (files.map (fun f => Report.ofText f.path f.text limits), some f) := by
  rw [reports_of_reads h, reports, ha, List.append_nil]

theorem checkFiles_json {rs : List Report} (h : reports limits args = (rs, none)) :
    checkFiles args limits .json =
      { answer := .ok (Summary.ofReports rs)
        out := [.plain (Json.array ((rs.filter (!·.diagnostics.isEmpty)).map Report.toJson)).pretty,
          .newline]
        diagnostics := "" } := by
  rw [checkFiles, h]

theorem checkFiles_pretty {rs : List Report} (h : reports limits args = (rs, none)) :
    checkFiles args limits .pretty =
      { answer := .ok (Summary.ofReports rs)
        out := (Summary.ofReports rs).pieces
        diagnostics := String.join (rs.map Report.render) } := by
  rw [checkFiles, h]

theorem checkFiles_of_fails {rs : List Report} {f : Failure}
    (h : reports limits args = (rs, some f)) (format : Format) :
    (checkFiles args limits format).answer = .error f ∧
      (checkFiles args limits format).out = [] := by
  rw [checkFiles, h]
  exact ⟨rfl, rfl⟩

theorem Summary.ofReports_eq (rs : List Report) :
    Summary.ofReports rs = ⟨rs.length, (rs.map (·.diagnostics.length)).sum⟩ := by
  rw [ofReports, List.sum_eq_foldl, List.foldl_map]

/-! ### What is written -/

/-- The JSON form of a diagnostic stands for an error: it has its code and message, and one label,
in the file. -/
structure DescribesError (path : String) (d : Json) (e : SyntaxError) : Prop where
  code : d.member? "code" = some (.string e.problem.code)
  message : d.member? "message" = some (.string e.message)
  label : ∃ l, d.member? "labels" = some (.array [l]) ∧ l.member? "file" = some (.string path)

theorem describesError_toJson (e : SyntaxError) (file : SourceFile) :
    DescribesError file.path ((Diagnostic.ofError e 0).toJson [file]) e := by
  obtain ⟨place, hplace, hplaces⟩ := Diagnostic.exists_places_ofError e file
  have hpath : place.path = file.path := by
    cases hplace
    rfl
  constructor
  case code => exact congrArg (some ∘ Json.ofText?) (Diagnostic.code_ofError e 0)
  case message => exact congrArg (some ∘ Json.string) (Diagnostic.message_ofError e 0)
  case label =>
    refine ⟨place.toJson, ?_, congrArg (some ∘ Json.string) hpath⟩
    rw [Diagnostic.member?_labels_toJson, hplaces, List.map_singleton]

/-- The JSON form of a report is about a file: it names the file, and its diagnostics stand for the
errors of the file, one for each and in order. -/
structure ReportsFile (limits : Limits) (r : Json) (f : TextFile) : Prop where
  file : r.member? "file" = some (.string f.path)
  diagnostics : ∃ ds, r.member? "diagnostics" = some (.array ds) ∧
    List.Forall₂ (DescribesError f.path) ds (f.errors limits)

theorem reportsFile_toJson (limits : Limits) (f : TextFile) :
    ReportsFile limits (Report.ofText f.path f.text limits).toJson f := by
  refine ⟨rfl, _, rfl, ?_⟩
  rw [Report.ofText, List.map_map, List.forall₂_map_left_iff]
  exact List.forall₂_same.2 fun e _ => describesError_toJson e f.source

/-- The text of a diagnostic stands for an error: it is the rendering of it in the file, and begins
with its code and message. -/
structure RendersError (f : TextFile) (r : String) (e : SyntaxError) : Prop where
  eq : r = (Diagnostic.ofError e 0).render [f.source]
  header : ∃ rows, r = "error[" ++ e.problem.code ++ "]: " ++ e.message ++ "\n" ++ rows

theorem join_flatten (rss : List (List String)) :
    String.join rss.flatten = String.join (rss.map String.join) := by
  induction rss with
  | nil => rfl
  | cons rs rss ih =>
    rw [List.flatten_cons, String.join_append, ih, List.map_cons, String.join_cons]

/-- The text of a report is made of one rendering for each error of the file. -/
theorem exists_render_report (limits : Limits) (f : TextFile) :
    ∃ rs, (Report.ofText f.path f.text limits).render = String.join rs ∧
      List.Forall₂ (RendersError f) rs (f.errors limits) := by
  refine ⟨_, rfl, ?_⟩
  rw [Report.ofText, List.map_map, List.forall₂_map_left_iff]
  exact List.forall₂_same.2 fun e _ => ⟨rfl, Diagnostic.exists_render_ofError e 0 _⟩

/-- What a check of files that can all be read leaves: the numbers of files and errors in both
formats; as JSON the text of one array of reports, on the files that have errors and in their order,
and no diagnostics; as text the renderings of the errors of all files, one after the other. -/
structure Complete (limits : Limits) (args : List Argument) (files : List TextFile) : Prop where
  answer : ∀ format, (checkFiles args limits format).answer =
    .ok ⟨args.length, (files.map fun f => (f.errors limits).length).sum⟩
  json_out : ∃ rs text, (checkFiles args limits .json).out = [.plain text, .newline] ∧
    (Json.array rs).TextOf text.toList ∧
      List.Forall₂ (ReportsFile limits) rs (files.filter fun f => !(f.errors limits).isEmpty)
  json_diagnostics : (checkFiles args limits .json).diagnostics = ""
  pretty_diagnostics : ∃ rss : List (List String),
    (checkFiles args limits .pretty).diagnostics = String.join rss.flatten ∧
      List.Forall₂ (fun rs f => List.Forall₂ (RendersError f) rs (f.errors limits)) rss files

theorem complete_of_reads (h : List.Forall₂ Reads args files) : Complete limits args files := by
  have hreports := @reports_of_reads_all limits _ _ h
  have hjson := checkFiles_json hreports
  have hpretty := checkFiles_pretty hreports
  constructor
  case answer =>
    have hsummary : Summary.ofReports (files.map fun f => Report.ofText f.path f.text limits) =
        ⟨args.length, (files.map fun f => (f.errors limits).length).sum⟩ := by
      rw [Summary.ofReports_eq, List.length_map, h.length_eq, List.map_map]
      simp only [Function.comp_def, Report.ofText, List.length_map, TextFile.errors]
    intro format
    cases format
    · rw [hpretty, hsummary]
    · rw [hjson, hsummary]
  case json_out =>
    refine ⟨_, _, congrArg CommandResult.out hjson, Json.textOf_pretty _, ?_⟩
    have hfilter : ((files.map fun f => Report.ofText f.path f.text limits).filter
        (!·.diagnostics.isEmpty)) =
          (files.filter fun f => !(f.errors limits).isEmpty).map fun f =>
            Report.ofText f.path f.text limits := by
      simp only [List.filter_map, Function.comp_def, Report.ofText, List.isEmpty_map,
        TextFile.errors]
    rw [hfilter, List.map_map, List.forall₂_map_left_iff]
    exact List.forall₂_same.2 fun f _ => reportsFile_toJson limits f
  case json_diagnostics => rw [hjson]
  case pretty_diagnostics =>
    choose renderings hrender hstand using exists_render_report limits
    refine ⟨files.map renderings, ?_, ?_⟩
    · rw [hpretty, join_flatten, List.map_map, List.map_map]
      exact congrArg String.join (List.map_congr_left fun f _ => hrender f)
    · rw [List.forall₂_map_left_iff]
      exact List.forall₂_same.2 fun f _ => hstand f

/-- A check reports every error of files that can all be read. When one of them cannot be read, the
check fails with the first of these, and prints nothing. -/
theorem checkFiles_complete (limits : Limits) (args : List Argument) :
    (∀ files, List.Forall₂ Reads args files → Complete limits args files) ∧
      ((∃ a ∈ args, ∀ text, a.readText ≠ .ok text) → ∃ before a after f,
        args = before ++ a :: after ∧ (∀ b ∈ before, ∃ text, b.readText = .ok text) ∧
        a.readText = .error f ∧ ∀ format, (checkFiles args limits format).answer = .error f ∧
          (checkFiles args limits format).out = []) := by
  refine ⟨fun files => complete_of_reads, ?_⟩
  rintro ⟨a, ha, hfails⟩
  rcases forall₂_reads_or_fails args with ⟨files, h⟩ | ⟨before, b, after, f, files, rfl, h, hb⟩
  · obtain ⟨text, htext⟩ := exists_text_of_mem h ha
    exact absurd htext (hfails text)
  · exact ⟨before, b, after, f, rfl, fun _ => exists_text_of_mem h, hb,
      checkFiles_of_fails (reports_of_fails h hb after)⟩

/-- A clean file and one without its closing brace are checked: the array has one report, on the
second of them. With a missing one behind them the check fails. -/
theorem checkFiles_complete_broken :
    let clean : Argument := ⟨"a.bp", .ok (.file "x = 1\n".toUTF8)⟩
    let broken : Argument := ⟨"b.bp", .ok (.file "m \x7b".toUTF8)⟩
    let missing : Argument := ⟨"c.bp", .error .missing⟩
    (∀ format, (checkFiles [clean, broken] .standard format).answer = .ok ⟨2, 1⟩) ∧
      (∃ r text, (checkFiles [clean, broken] .standard .json).out = [.plain text, .newline] ∧
        (Json.array [r]).TextOf text.toList ∧ ReportsFile .standard r ⟨"b.bp", "m \x7b"⟩) ∧
      ∀ format, (checkFiles [clean, broken, missing] .standard format).out = [] := by
  intro clean broken missing
  have hread : List.Forall₂ Reads [clean, broken]
      [⟨"a.bp", "x = 1\n"⟩, ⟨"b.bp", "m \x7b"⟩] :=
    .cons ⟨rfl, readText_file _ _⟩ (.cons ⟨rfl, readText_file _ _⟩ .nil)
  have hcomplete := (checkFiles_complete .standard [clean, broken]).1 _ hread
  have hfails : ∃ a ∈ [clean, broken, missing], ∀ text, a.readText ≠ .ok text :=
    ⟨missing, by simp, fun _ h => nomatch h⟩
  obtain ⟨_, _, _, _, -, -, -, hout⟩ :=
    (checkFiles_complete .standard [clean, broken, missing]).2 hfails
  refine ⟨fun format => (hcomplete.answer format).trans ?_, ?_, fun format => (hout format).2⟩
  · decide +kernel
  · obtain ⟨rs, text, houttext, htext, hreports⟩ := hcomplete.json_out
    have hclean : TextFile.errors ⟨"a.bp", "x = 1\n"⟩ .standard = [] := by decide +kernel
    have hbroken : (TextFile.errors ⟨"b.bp", "m \x7b"⟩ .standard).isEmpty = false := by
      decide +kernel
    rw [List.filter_cons_of_neg (by simp [hclean]), List.filter_cons_of_pos (by simp [hbroken]),
      List.filter_nil] at hreports
    cases hreports with
    | cons hreport hrest =>
      cases hrest
      exact ⟨_, _, houttext, htext, hreport⟩

end Check

end Blueprint
