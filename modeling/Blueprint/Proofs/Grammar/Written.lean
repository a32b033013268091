import Blueprint.Proofs.Token.Literal
import Blueprint.Proofs.Tree.Seen
import Blueprint.Proofs.Grammar.Recovers

/-!
# Values that are written and read back

A literal that is written for a value is one token, whatever stands after it (`Lexeme.Writes`). A
text that assigns it, or an array of it, follows the grammar: it has no error and its tree is the one
that the grammar gives its tokens (`parse_of_regular`). The views find the literal in this tree and
give the value back (`Lexeme.Writes.readsBack`).
-/

namespace Blueprint

open Lexeme Token Sketch Text.Quoted

namespace Lexeme

/-- A lexeme that is a literal of a value. -/
inductive Writes (value : List Char) : Lexeme → Prop
  | quoted {chars body : List Char} : Literal chars body value → Writes value ⟨.quoted, chars⟩
  | raw {chars : List Char} : Raw chars value → Writes value ⟨.raw, chars⟩

/-- The kind of a literal directly inside an array. -/
def elementKind (l : Lexeme) : TokenKind := if l.chars.take 2 = ['"', ':'] then .link else .string

theorem elementKind_eq (l : Lexeme) : l.elementKind = .string ∨ l.elementKind = .link := by
  rw [elementKind]
  split
  · exact .inr rfl
  · exact .inl rfl

theorem elementKind_raw {chars body : List Char} (H : Raw chars body) :
    (⟨.raw, chars⟩ : Lexeme).elementKind = .string := by
  rw [H.chars_eq, elementKind]
  exact if_neg (by simp)

/-- An escape does not hide a colon at the start. -/
theorem take_encode (v : List Char) :
    (encode v).take 2 = ['"', ':'] ↔ v.head? = some ':' := by
  rw [encode]
  fun_cases escaped v with
  | case1 | case2 | case3 | case4 => simp
  | case5 c cs => simp

namespace Writes

variable {value : List Char} {l : Lexeme}

theorem scan_append (H : Writes value l) (rest : List Char) :
    scan (l.chars ++ rest) = l :: scan rest := by
  cases H with
  | quoted H => exact scan_literal H rest
  | raw H => exact scan_raw H rest

theorem decode_eq (H : Writes value l) : decode l.chars = value := by
  cases H with
  | quoted H => exact H.decode_eq
  | raw H => exact H.decode_eq

/-- A literal starts with a delimiter. -/
theorem exists_cons (H : Writes value l) : ∃ c cs, l.chars = c :: cs ∧ isBlank c = false := by
  cases H with
  | quoted H => exact ⟨_, _, H.chars_eq, by decide⟩
  | raw H => exact ⟨_, _, H.chars_eq, by decide⟩

theorem isTrivia_shape (H : Writes value l) : l.shape.isTrivia = false := by
  cases H <;> rfl

theorem kindOf_outside (H : Writes value l) {ctx : Context}
    (hctx : ctx.nesting.head? ≠ some .square) (ls : List Lexeme) : ctx.kindOf l ls = .string := by
  cases H with
  | quoted => exact if_neg fun h => hctx h.1
  | raw => rfl

theorem kindOf_inside (H : Writes value l) {ctx : Context}
    (hctx : ctx.nesting.head? = some .square) (ls : List Lexeme) : ctx.kindOf l ls = l.elementKind := by
  cases H with
  | quoted => simp only [Context.kindOf, elementKind, hctx, true_and]
  | raw H => exact (elementKind_raw H).symm

end Writes

theorem run_cons_of_neg {p : Char → Bool} {c : Char} (h : p c = false) (cs : List Char) :
    run p (c :: cs) = 0 := by
  rw [run, List.takeWhile_cons_of_neg (by simp [h])]
  rfl

/-- The lexemes of a name, an equals sign and what is assigned. -/
theorem scan_assigned {c : Char} (hc : isBlank c = false) (cs : List Char) :
    scan ("X = ".toList ++ c :: cs) =
      ⟨.word, ['X']⟩ :: ⟨.whitespace, [' ']⟩ :: ⟨.equals, ['=']⟩ :: ⟨.whitespace, [' ']⟩ ::
        scan (c :: cs) := by
  have hname : ∀ ds, longest 'X' (' ' :: ds) = (.word, 0) := fun _ => rfl
  have hspace : ∀ ds, longest ' ' ds = (.whitespace, run isBlank ds) := fun _ => rfl
  have hequals : ∀ ds, longest '=' ds = (.equals, 0) := fun _ => rfl
  change scan ('X' :: ' ' :: '=' :: ' ' :: c :: cs) = _
  rw [scan_cons, hname, List.drop_zero, scan_cons, hspace, run_cons_of_neg (by decide),
    List.drop_zero, scan_cons, hequals, List.drop_zero, scan_cons, hspace, run_cons_of_neg hc]
  rfl

namespace Writes

open TokenStream

variable {value : List Char} {l : Lexeme}

theorem words_assigned (H : Writes value l) :
    words (tokenize ("X = " ++ String.ofList l.chars)) =
      [⟨.variableName, ['X']⟩, ⟨.equals, ['=']⟩, ⟨.string, l.chars⟩, ⟨.eof, []⟩] := by
  obtain ⟨c, cs, hchars, hc⟩ := H.exists_cons
  have htext : ("X = " ++ String.ofList l.chars).toList = "X = ".toList ++ l.chars := by simp
  have hscan : scan ("X = " ++ String.ofList l.chars).toList =
      [⟨.word, ['X']⟩, ⟨.whitespace, [' ']⟩, ⟨.equals, ['=']⟩, ⟨.whitespace, [' ']⟩, l] := by
    have hl := H.scan_append []
    rw [List.append_nil, scan_nil] at hl
    rw [htext, hchars, scan_assigned hc, ← hchars, hl]
  have hkind : (⟨some .equals, []⟩ : Context).kindOf l [] = .string :=
    H.kindOf_outside (by decide) []
  have hsignificant : Lexeme.significant [l] = [l] := significant_cons H.isTrivia_shape
  rw [words_tokenize, hscan]
  -- in front of the literal all is known, and only it is left to be classified
  change Context.empty.classify (_ :: _ :: Lexeme.significant [l]) ++ _ = _
  rw [hsignificant, ← hkind]
  rfl

theorem words_element (H : Writes value l) :
    words (tokenize ("X = [" ++ String.ofList l.chars ++ "]")) =
      [⟨.variableName, ['X']⟩, ⟨.equals, ['=']⟩, ⟨.arrayStart, ['[']⟩, ⟨l.elementKind, l.chars⟩,
        ⟨.arrayEnd, [']']⟩, ⟨.eof, []⟩] := by
  have htext : ("X = [" ++ String.ofList l.chars ++ "]").toList =
      "X = ".toList ++ '[' :: (l.chars ++ [']']) := by simp
  have hopen : scan ('[' :: (l.chars ++ [']'])) = ⟨.openBracket, ['[']⟩ :: l :: scan [']'] := by
    rw [scan_cons, ← H.scan_append]
    rfl
  have hclose : scan [']'] = [⟨.closeBracket, [']']⟩] := by
    rw [scan_cons, ← scan_nil]
    rfl
  have hkind : (⟨some .openBracket, [.square]⟩ : Context).kindOf l [⟨.closeBracket, [']']⟩] =
      l.elementKind := H.kindOf_inside rfl _
  have hsignificant : Lexeme.significant [l, ⟨.closeBracket, [']']⟩] =
      [l, ⟨.closeBracket, [']']⟩] := significant_cons H.isTrivia_shape
  rw [words_tokenize, htext, scan_assigned (by decide), hopen, hclose]
  change Context.empty.classify (_ :: _ :: _ :: Lexeme.significant [l, _]) ++ _ = _
  rw [hsignificant, ← hkind]
  rfl

end Writes

end Lexeme

/-! ### Texts that follow the grammar -/

theorem Regular.of_rmatch {α : Type} {kind : α → TokenKind} {bad : Sketch α → Prop} {k : NodeKind}
    {cs : List (Sketch α)} {w : List Symbol} (hw : symbols kind cs = w)
    (h : k.whole.rmatch w = true) (H : Regular kind bad cs) : Regular kind bad [.node k cs] :=
  .node (hw ▸ (k.whole.rmatch_iff_matches' w).1 h) H .nil

/-- A text whose tokens are the leaves of a tree that follows the grammar has that tree, and no
error. -/
theorem parse_of_regular {source : String} {limits : Limits} {xs : List (Sketch Token)}
    (hiterations : (words (tokenize source)).length ≤ limits.maxIterations)
    (H : Regular Token.kind (fun _ => False) [.node .file xs])
    (hwithin : Within Token.kind limits.maxDepth (fun _ => False) [] [.node .file xs] 0)
    (hleaves : leavesAll xs = significant (tokenize source)) :
    (parse source limits).errors = [] ∧
      Element.sketches (parse source limits).tree.root.children = xs := by
  have hready : Ready limits (State.start source) := by
    refine ⟨State.wf_start source, Nat.le_trans ?_ hiterations⟩
    rw [State.kinds_start, kindsOf_eq_map_words, List.length_map, tokenize, TokenStream.toList,
      words_append, List.length_append]
    exact Nat.le_add_right _ _
  obtain ⟨htree, errors, herrors, -, hraised⟩ :=
    parse_within (Script.sound_of_false limits (tokenize source)) hready H hwithin rfl hleaves
  obtain rfl := List.length_eq_zero_iff.1 herrors
  exact ⟨hraised, (Sketch.node.inj htree).2⟩

namespace Sketch

/-- What a file holds that assigns a value. -/
abbrev assignment (x q e : Token) (value : List (Sketch Token)) : List (Sketch Token) :=
  [.node .variable [.leaf x, .leaf q, .node .value value], .leaf e]

/-- What a value of one string holds. -/
abbrev oneString (t : Token) : List (Sketch Token) := [.node .stringExpr [.leaf t]]

/-- What a value of one array with one element holds. -/
abbrev oneElement (a t b : Token) : List (Sketch Token) :=
  [.node .arrayExpr
    [.node .array [.leaf a, .node .elements [.node .arrayElement [.leaf t]], .leaf b]]]

end Sketch

section

variable {a b t x q e : Token} {value : List (Sketch Token)} {bad : Sketch Token → Prop}
  {depth : Nat}

theorem regular_assignment (hx : x.kind = .variableName) (hq : q.kind = .equals)
    (he : e.kind = .eof) (H : Regular Token.kind bad [.node .value value]) :
    Regular Token.kind bad [.node .file (assignment x q e value)] := by
  have hvariable : symbols Token.kind [.leaf x, .leaf q, .node .value value] =
      [.token .variableName, .token .equals, .node .value] := by
    simp [symbols, symbol, hx, hq]
  have hfile (xs : List (Sketch Token)) : symbols Token.kind [.node .variable xs, .leaf e] =
      [.node .variable, .token .eof] := by
    simp [symbols, symbol, he]
  exact .of_rmatch (hfile _) (by decide) <|
    .append (.of_rmatch hvariable (by decide) (.leaf (.leaf H))) (.leaf .nil)

theorem regular_oneString (ht : t.kind = .string) :
    Regular Token.kind bad [.node .value (oneString t)] := by
  have hstring : symbols Token.kind [.leaf t] = [.token .string] := by
    simp [symbols, symbol, ht]
  exact .of_rmatch (w := [.node .stringExpr]) rfl (by decide)
    (.of_rmatch hstring (by decide) (.leaf .nil))

theorem regular_oneElement (ha : a.kind = .arrayStart) (ht : t.kind = .string ∨ t.kind = .link)
    (hb : b.kind = .arrayEnd) : Regular Token.kind bad [.node .value (oneElement a t b)] := by
  have helement : Regular Token.kind bad [.node .arrayElement [.leaf t]] := by
    have hword : symbols Token.kind [.leaf t] = [.token t.kind] := rfl
    rcases ht with ht | ht <;> rw [ht] at hword <;> exact .of_rmatch hword (by decide) (.leaf .nil)
  have helements : Regular Token.kind bad [.node .elements [.node .arrayElement [.leaf t]]] :=
    .of_rmatch (w := [.node .arrayElement]) rfl (by decide) helement
  have hword (xs : List (Sketch Token)) :
      symbols Token.kind [.leaf a, .node .elements xs, .leaf b] =
        [.token .arrayStart, .node .elements, .token .arrayEnd] := by
    simp [symbols, symbol, ha, hb]
  exact .of_rmatch (w := [.node .arrayExpr]) rfl (by decide)
    (.of_rmatch (w := [.node .array]) rfl (by decide)
      (.of_rmatch (hword _) (by decide) (.leaf (helements.append (.leaf .nil)))))

theorem within_assignment
    (H : Within Token.kind depth bad [.variable, .file] [.node .value value] 0) :
    Within Token.kind depth bad [] [.node .file (assignment x q e value)] 0 :=
  .node (n := 0) (Nat.zero_le _) (.inl (by decide))
    (.node (n := 0) (Nat.zero_le _) (.inl (by decide)) (.leaf (.leaf H)) (.leaf .nil)) .nil

theorem within_oneString :
    Within Token.kind depth bad [.variable, .file] [.node .value (oneString t)] 0 :=
  .node (n := 0) (Nat.zero_le _) (.inl (by decide))
    (.node (n := 0) (Nat.zero_le _) (.inl (by decide)) (.leaf .nil) .nil) .nil

/-- An array takes up a level. -/
theorem within_oneElement (h : 0 < depth) : Within Token.kind depth (fun _ => False)
    [.variable, .file] [.node .value (oneElement a t b)] 0 := by
  have helement : Within Token.kind depth (fun _ => False)
      [.elements, .array, .arrayExpr, .value, .variable, .file] [.node .arrayElement [.leaf t]] 0 :=
    .node (n := 0) h (.inl (by decide)) (.leaf .nil) .nil
  have helements : Within Token.kind depth (fun _ => False)
      [.array, .arrayExpr, .value, .variable, .file]
      [.leaf a, .node .elements [.node .arrayElement [.leaf t]], .leaf b] 0 :=
    .leaf (.node (n := 0) h (.inr not_false) helement (.leaf .nil))
  exact .node (n := 0) (Nat.zero_le _) (.inl (by decide))
    (.node (n := 0) (Nat.zero_le _) (.inl (by decide))
      (.node (n := 0) h (.inl (by decide)) helements .nil) .nil) .nil

end

/-! ### What is assigned -/

/-- The text has no error, and its only item gives `X` a value of which `p` holds. -/
def Assigns (limits : Limits) (source : String) (p : ValueView → Prop) : Prop :=
  (parse source limits).errors = [] ∧
    ∃ (f : FileView) (x : VariableView) (v : ValueView),
      (parse source limits).tree.file? = some f ∧ f.items = [x.cursor] ∧
      VariableView.name? x = some "X" ∧ VariableView.value? x = some v ∧ p v

theorem Assigns.mono {limits : Limits} {source : String} {p q : ValueView → Prop}
    (H : Assigns limits source p) (h : ∀ v, p v → q v) : Assigns limits source q := by
  obtain ⟨herrors, f, x, v, hf, hitems, hname, hvalue, hv⟩ := H
  exact ⟨herrors, f, x, v, hf, hitems, hname, hvalue, h v hv⟩

/-- An assignment that is seen in a tree. -/
theorem assigns_of_contents {source : String} {limits : Limits} {x q e : Token}
    {value : List (Sketch Token)} (hx : x.word = ⟨.variableName, ['X']⟩)
    (herrors : (parse source limits).errors = [])
    (hchildren : Element.sketches (parse source limits).tree.root.children =
      assignment x q e value) :
    Assigns limits source fun v => v.contents = value := by
  obtain ⟨hkind, hchars⟩ := Word.mk.inj hx
  obtain ⟨f, hf, hcontents⟩ : ∃ f : FileView, (parse source limits).tree.file? = some f ∧
      f.contents = assignment x q e value :=
    ⟨⟨(parse source limits).tree.cursor, rfl⟩, Cursor.as?_eq_some_iff.2 rfl, hchildren⟩
  obtain ⟨y, hy, hnodes, -⟩ := View.exists_only (v := f) (by rw [hcontents]; rfl)
  obtain ⟨v, hv, -, hvalue, -⟩ := View.exists_only (v := y) (by rw [hy]; rfl)
  refine ⟨herrors, f, y, v, hf, ?_, ?_, hvalue, hv⟩
  · rw [FileView.items, hnodes]
    simp [y.kind_eq]
  · rw [VariableView.name?, VariableView.token?, View.token?_eq _ (by decide), hy]
    simp [Sketch.leaf?, hkind, hchars, Token.text]

/-- A value that follows the grammar is what its text assigns. -/
theorem assigns_of_regular {source : String} {limits : Limits} {x q e : Token}
    {value : List (Sketch Token)} (hx : x.word = ⟨.variableName, ['X']⟩) (hq : q.kind = .equals)
    (he : e.kind = .eof)
    (htokens : significant (tokenize source) = x :: q :: (leavesAll value ++ [e]))
    (hiterations : (words (tokenize source)).length ≤ limits.maxIterations)
    (H : Regular Token.kind (fun _ => False) [.node .value value])
    (hwithin : Within Token.kind limits.maxDepth (fun _ => False) [.variable, .file]
      [.node .value value] 0) :
    Assigns limits source fun v => v.contents = value := by
  have hleaves : leavesAll (assignment x q e value) = significant (tokenize source) := by
    simp [leavesAll, leaves, htokens]
  obtain ⟨herrors, hchildren⟩ := parse_of_regular hiterations
    (regular_assignment (congrArg Word.kind hx) hq he H) (within_assignment hwithin) hleaves
  exact assigns_of_contents hx herrors hchildren

section

variable {v : ValueView} {a b t : Token}

theorem ValueView.asString?_of_contents (h : v.contents = oneString t)
    (ht : t.kind = .string) : ValueView.asString? v = some (unquote t.text) := by
  obtain ⟨s, hs, hnode, -⟩ := View.exists_only (v := v) (by rw [h]; rfl)
  have hform : ValueView.form? v = some (.string s) := by
    rw [form?_eq hnode (by rw [h]; rfl), ValueForm.ofChild?, Cursor.as?, dif_pos s.kind_eq]
    rfl
  have hparts : StringView.parts s = [t] := by
    rw [StringView.parts_eq, hs]
    simp [Sketch.leaf?, ht]
  rw [asString?, hform]
  simp only [StringView.value, hparts]
  simp [String.join]

theorem ValueView.exists_array_of_contents (h : v.contents = oneElement a t b) :
    ∃ xs e, ValueView.form? v = some (.array xs) ∧ ArrayExprView.elements xs = [e] ∧
      ElementView.token? e = some t := by
  obtain ⟨xs, hxs, hnode, -⟩ := View.exists_only (v := v) (by rw [h]; rfl)
  have hform : ValueView.form? v = some (.array xs) := by
    rw [form?_eq hnode (by rw [h]; rfl), ValueForm.ofChild?, Cursor.as?,
      dif_neg (by rw [xs.kind_eq]; decide), Cursor.as?, dif_pos xs.kind_eq]
    rfl
  obtain ⟨ys, hys, -, -, harrays⟩ := View.exists_only (v := xs) (by rw [hxs]; rfl)
  obtain ⟨es, hes, -, helements, -⟩ := View.exists_only (v := ys) (by rw [hys]; rfl)
  obtain ⟨e, he, -, -, hchildren⟩ := View.exists_only (v := es) (by rw [hes]; rfl)
  refine ⟨xs, e, hform, ?_, ?_⟩
  · rw [ArrayExprView.elements, ArrayExprView.arrays, harrays, List.flatMap_singleton,
      ArrayView.elements, helements, Option.map_some, Option.getD_some, ElementsView.elements,
      hchildren]
  · rw [ElementView.token?, Cursor.significantTokens_eq]
    change (e.contents.filterMap _).head? = _
    rw [he]
    rfl

end

/-! ### Written literals -/

/-- A literal reads back as a value, and as an element it has this kind. -/
structure ReadsBack (limits : Limits) (literal value : String) (kind : TokenKind) : Prop where
  assigned : Assigns limits ("X = " ++ literal) fun v => v.asString? = some value
  element : Assigns limits ("X = [" ++ literal ++ "]") fun v =>
    ∃ xs e, v.form? = some (.array xs) ∧ xs.elements = [e] ∧ e.literal? = some value ∧
      e.tokenKind? = some kind

namespace Lexeme.Writes

variable {value : List Char} {l : Lexeme} {limits : Limits}

theorem unquote_text (H : Writes value l) {t : Token} (ht : t.chars = l.chars) :
    unquote t.text = String.ofList value := by
  rw [unquote, Token.text, String.toList_ofList, ht, H.decode_eq]

theorem assigns (H : Writes value l) (hiterations : 4 ≤ limits.maxIterations) :
    Assigns limits ("X = " ++ String.ofList l.chars) fun v =>
      ValueView.asString? v = some (String.ofList value) := by
  have hwords := H.words_assigned
  have hcount := congrArg List.length hwords
  obtain ⟨x, ts, htokens, hx, hwords⟩ := List.map_eq_cons_iff.1 hwords
  obtain ⟨q, ts, rfl, hq, hwords⟩ := List.map_eq_cons_iff.1 hwords
  obtain ⟨t, ts, rfl, ht, hwords⟩ := List.map_eq_cons_iff.1 hwords
  obtain ⟨e, rfl, he⟩ := List.map_eq_singleton_iff.1 hwords
  obtain ⟨hkind, hchars⟩ := Word.mk.inj ht
  refine (assigns_of_regular hx (congrArg Word.kind hq) (congrArg Word.kind he) htokens
    (hcount ▸ hiterations) (regular_oneString hkind) within_oneString).mono fun v hv => ?_
  rw [ValueView.asString?_of_contents hv hkind, H.unquote_text hchars]

theorem assigns_array (H : Writes value l) (hdepth : 0 < limits.maxDepth)
    (hiterations : 6 ≤ limits.maxIterations) :
    Assigns limits ("X = [" ++ String.ofList l.chars ++ "]") fun v => ∃ xs e,
      ValueView.form? v = some (.array xs) ∧ ArrayExprView.elements xs = [e] ∧
        ElementView.literal? e = some (String.ofList value) ∧
        ElementView.tokenKind? e = some l.elementKind := by
  have hwords := H.words_element
  have hcount := congrArg List.length hwords
  obtain ⟨x, ts, htokens, hx, hwords⟩ := List.map_eq_cons_iff.1 hwords
  obtain ⟨q, ts, rfl, hq, hwords⟩ := List.map_eq_cons_iff.1 hwords
  obtain ⟨a, ts, rfl, ha, hwords⟩ := List.map_eq_cons_iff.1 hwords
  obtain ⟨t, ts, rfl, ht, hwords⟩ := List.map_eq_cons_iff.1 hwords
  obtain ⟨b, ts, rfl, hb, hwords⟩ := List.map_eq_cons_iff.1 hwords
  obtain ⟨e, rfl, he⟩ := List.map_eq_singleton_iff.1 hwords
  obtain ⟨hkind, hchars⟩ := Word.mk.inj ht
  have hliteral : t.kind = .string ∨ t.kind = .link := hkind ▸ elementKind_eq l
  refine (assigns_of_regular hx (congrArg Word.kind hq) (congrArg Word.kind he) htokens
    (hcount ▸ hiterations)
    (regular_oneElement (congrArg Word.kind ha) hliteral (congrArg Word.kind hb))
    (within_oneElement hdepth)).mono fun v hv => ?_
  obtain ⟨xs, y, hform, helements, htoken⟩ := ValueView.exists_array_of_contents hv
  refine ⟨xs, y, hform, helements, ?_, ?_⟩
  · rw [ElementView.literal?, htoken, Option.map_some, if_pos hliteral, H.unquote_text hchars]
  · rw [ElementView.tokenKind?, htoken, Option.map_some, hkind]

end Lexeme.Writes

theorem Lexeme.Writes.readsBack {value : List Char} {l : Lexeme} {limits : Limits}
    (H : Writes value l) (hdepth : 0 < limits.maxDepth) (hiterations : 6 ≤ limits.maxIterations) :
    ReadsBack limits (String.ofList l.chars) (String.ofList value) l.elementKind :=
  ⟨H.assigns (Nat.le_trans (by decide) hiterations), H.assigns_array hdepth hiterations⟩

/-- Every value reads back when it is written between double quotes with its escapes, and then a
colon at its start makes the element a link. Without a backquote in it, it also reads back as it
stands between backquotes. -/
theorem parse_written {limits : Limits} (hdepth : 0 < limits.maxDepth)
    (hiterations : 6 ≤ limits.maxIterations) (v : String) :
    ReadsBack limits (String.ofList (encode v.toList)) v
        (if v.toList.head? = some ':' then .link else .string) ∧
      ('\x60' ∉ v.toList → ReadsBack limits ("\x60" ++ v ++ "\x60") v .string) := by
  constructor
  · have H := (Writes.quoted (literal_encode v.toList)).readsBack hdepth hiterations
    rw [String.ofList_toList] at H
    simpa only [elementKind, take_encode] using H
  · intro hv
    have hraw : Raw ('\x60' :: (v.toList ++ ['\x60'])) v.toList := ⟨rfl, hv⟩
    have H := (Writes.raw hraw).readsBack hdepth hiterations
    have htext : String.ofList ('\x60' :: (v.toList ++ ['\x60'])) = "\x60" ++ v ++ "\x60" :=
      String.toList_inj.1 (by simp)
    rwa [String.ofList_toList, htext, elementKind_raw hraw] at H

theorem parse_written_link :
    (0 < Limits.standard.maxDepth ∧ 6 ≤ Limits.standard.maxIterations ∧
      '\x60' ∉ ":a\\\"\n".toList) ∧
    ReadsBack .standard "\":a\\\\\\\"\\n\"" ":a\\\"\n" .link ∧
    ReadsBack .standard "\x60:a\\\"\n\x60" ":a\\\"\n" .string := by
  have H := @parse_written .standard (by decide) (by decide) ":a\\\"\n"
  exact ⟨⟨by decide, by decide, by decide⟩, H.1, H.2 (by decide)⟩

end Blueprint
