import Blueprint.Diagnostic.Snippet
import Blueprint.Proofs.Grammar.InOrder
import Blueprint.Proofs.Text.Line

/-!
# Places of diagnostics

The diagnostic of an error has one label, which points from the line and column that the error
remembers to those that reading the text up to the end of its range arrives at
(`Diagnostic.places_ofError`).
-/

namespace Blueprint

open Text

/-- Every error of a text lies in it. -/
theorem SyntaxError.placed_of_mem {source : String} {limits : Limits} {e : SyntaxError}
    (he : e ∈ (parse source limits).errors) : e.span.Placed source := by
  have hcourse := (Rule.follows_contents limits (State.wf_start source)).2
  have hstart : (State.start source).InOrder source :=
    ⟨.nil, fun _ h => absurd h List.not_mem_nil, fun _ h => absurd h List.not_mem_nil⟩
  have horder := hcourse.inOrder (State.stands_start source) hstart
  exact horder.placed e ((SyntaxError.recorded_sublist _).mem (List.mem_reverse.1 he))

namespace Span.Placed

variable {source : String} {s : Span}

/-- The lookup of the start gives back the line and column that the range remembers. -/
theorem lineAt_start (H : s.Placed source) :
    (lineAt s.start (lineTable source.toList)).number = s.line ∧
      (lineAt s.start (lineTable source.toList)).columnOf s.start = s.column := by
  obtain ⟨before, after, hsource, hstart, hline, hcolumn⟩ := H.place
  have h := lineAt_lineTable before after
  rw [Position.after_first, ← hsource, ← hstart] at h
  exact ⟨h.1.trans hline.symm, h.2.trans hcolumn.symm⟩

/-- The lookup of the end finds where reading the text up to there arrives. -/
theorem lineAt_stop (H : s.Placed source) :
    ∃ front back, source.toList = front ++ back ∧ byteLength front = s.stop ∧
      (lineAt s.stop (lineTable source.toList)).number = (Position.first.after front).line ∧
      (lineAt s.stop (lineTable source.toList)).columnOf s.stop =
        (Position.first.after front).column := by
  obtain ⟨front, back, hsource, hstop⟩ := exists_of_isValid H.boundaries.2
  have h := lineAt_lineTable front back
  rw [← hsource, hstop] at h
  exact ⟨front, back, hsource, hstop, h⟩

end Span.Placed

/-- The place of an error in a file, from where its range starts up to `stop`. -/
def SyntaxError.place (e : SyntaxError) (path : String) (stop : Position) : Place :=
  ⟨path, e.span.line, e.span.column, stop.line, stop.column, e.problem.label⟩

namespace Diagnostic

theorem code_ofError (e : SyntaxError) (file : Nat) : (ofError e file).code = e.problem.code := by
  unfold ofError
  split <;> rfl

theorem message_ofError (e : SyntaxError) (file : Nat) : (ofError e file).message = e.message := by
  unfold ofError
  split <;> rfl

theorem labels_ofError (e : SyntaxError) (file : Nat) :
    (ofError e file).labels = [⟨file, e.span.start, e.span.stop, e.problem.label⟩] := by
  unfold ofError
  split <;> rfl

/-- The text of the diagnostic of an error begins with the code and the message. -/
theorem exists_render_ofError (e : SyntaxError) (file : Nat) (files : List SourceFile) :
    ∃ rows, (ofError e file).render files =
      "error[" ++ e.problem.code ++ "]: " ++ e.message ++ "\n" ++ rows := by
  have hseverity : (ofError e file).severity = .error := by
    unfold ofError
    split <;> rfl
  have hheader : Snippet.header (ofError e file) =
      "error[" ++ e.problem.code ++ "]: " ++ e.message := by
    rw [Snippet.header, hseverity, code_ofError, message_ofError]
    apply String.toList_injective
    simp [Severity.name]
  rw [render, List.cons_append, List.map_cons, String.join_cons, hheader]
  exact ⟨_, rfl⟩

theorem member?_labels_toJson (d : Diagnostic) (files : List SourceFile) :
    (d.toJson files).member? "labels" = some (.array ((d.places files).map Place.toJson)) :=
  rfl

/-- The one label of the diagnostic of an error has a place in the file. -/
theorem exists_places_ofError (e : SyntaxError) (file : SourceFile) :
    ∃ place, Label.place? [file] ⟨0, e.span.start, e.span.stop, e.problem.label⟩ = some place ∧
      (ofError e 0).places [file] = [place] :=
  ⟨_, rfl, by rw [places, labels_ofError]; rfl⟩

end Diagnostic

/-- The diagnostic of an error of a text has one label, and so does its JSON form. It starts on the
line and column that the error remembers, and ends on those where the reading of the text arrives at
the end of the range. -/
theorem parse_errors_located {source : String} {limits : Limits} {e : SyntaxError}
    (he : e ∈ (parse source limits).errors) (path : String) :
    ∃ front back, source.toList = front ++ back ∧ byteLength front = e.span.stop ∧
      (Diagnostic.ofError e 0).places [⟨path, source.toList⟩] =
        [e.place path (Position.first.after front)] ∧
      ((Diagnostic.ofError e 0).toJson [⟨path, source.toList⟩]).member? "labels" =
        some (.array [(e.place path (Position.first.after front)).toJson]) := by
  have H := SyntaxError.placed_of_mem he
  obtain ⟨hline, hcolumn⟩ := H.lineAt_start
  obtain ⟨front, back, hsource, hstop, hline', hcolumn'⟩ := H.lineAt_stop
  obtain ⟨place, hplace, hplaces⟩ :=
    Diagnostic.exists_places_ofError e ⟨path, source.toList⟩
  have hplace' : place = e.place path (Position.first.after front) := by
    rw [SyntaxError.place, ← hline, ← hcolumn, ← hline', ← hcolumn']
    exact (Option.some.inj hplace).symm
  refine ⟨front, back, hsource, hstop, hplace' ▸ hplaces, ?_⟩
  rw [Diagnostic.member?_labels_toJson, hplaces, hplace', List.map_singleton]

/-- A value is missing between a name on the first line, behind a letter of two bytes, and a colon
on the second. -/
theorem parse_errors_located_missing :
    let source := "/*\u00e9*/m\x7bx\n: \x7d"
    let e : SyntaxError := ⟨.missingValue, ⟨8, 11, 1, 8⟩⟩
    e ∈ (parse source .standard).errors ∧
      ((Diagnostic.ofError e 0).toJson [⟨"a.bp", source.toList⟩]).member? "labels" =
        some (.array [Place.toJson ⟨"a.bp", 1, 8, 2, 2, "value missing"⟩]) := by
  intro source e
  have he : e ∈ (parse source .standard).errors := by decide +kernel
  obtain ⟨front, back, hsource, hstop, -, hjson⟩ := parse_errors_located he "a.bp"
  have hend : Position.first.after front = ⟨11, 2, 2⟩ := by
    rw [← takeBytes_append front back, ← hsource, hstop]
    decide +kernel
  rw [hend] at hjson
  exact ⟨he, hjson⟩

end Blueprint
