import Blueprint.Text.Quoted
import Blueprint.Proofs.Token.Between

/-!
# String literals

Where a literal ends is found by the scan of the text, and what it stands for by `unquote`, which
takes the delimiters off and resolves the escapes. Both go through the body of a literal in the same
units (`Quoted.Spells`): a backslash with the character behind it, or one character. So the token of a
literal is its body between two delimiters, and its value is that of the units
(`tokenize_literals`).
-/

namespace Blueprint

namespace Text.Quoted

/-- What a backslash and a character stand for. Four of them stand for control characters, and any
other one for itself. -/
inductive Escapes : Char → Char → Prop
  | newline : Escapes 'n' '\n'
  | carriageReturn : Escapes 'r' '\r'
  | tab : Escapes 't' '\t'
  | nul : Escapes '0' '\x00'
  | other {c : Char} : c ∉ ['n', 'r', 't', '0'] → Escapes c c

/-- The units of a body and the value that they spell: a backslash with the character behind it, or a
character other than a quote or a backslash. -/
inductive Spells : (body value : List Char) → Prop
  | nil : Spells [] []
  | pair {c d : Char} {body value : List Char} : Escapes c d → Spells body value →
    Spells ('\\' :: c :: body) (d :: value)
  | plain {c : Char} {body value : List Char} : c ≠ '"' → c ≠ '\\' → Spells body value →
    Spells (c :: body) (c :: value)

/-- Characters between double quotes, on one line, that spell a value. -/
structure Literal (chars body value : List Char) : Prop where
  chars_eq : chars = '"' :: (body ++ ['"'])
  line : '\n' ∉ body
  spells : Spells body value

/-- Characters between backquotes, none of which is a backquote. -/
structure Raw (chars body : List Char) : Prop where
  chars_eq : chars = '\x60' :: (body ++ ['\x60'])
  not_mem : '\x60' ∉ body

variable {chars body value : List Char}

theorem escapes_escape (c : Char) : Escapes c (escape c) := by
  unfold escape
  split
  case h_1 => exact .newline
  case h_2 => exact .carriageReturn
  case h_3 => exact .tab
  case h_4 => exact .nul
  case h_5 hn hr ht h0 => exact .other (by simpa using ⟨hn, hr, ht, h0⟩)

theorem Escapes.eq {c d : Char} (H : Escapes c d) : escape c = d := by
  cases H with
  | other h =>
    simp only [List.mem_cons, List.not_mem_nil, or_false, not_or] at h
    unfold escape
    split <;> simp_all
  | _ => rfl

theorem Spells.unescape_eq (H : Spells body value) : unescape body = value := by
  induction H with
  | nil => rfl
  | pair h _ ih => rw [unescape, ih, h.eq]
  | plain _ hc _ ih =>
    rw [unescape, ih]
    · exact fun h _ => hc h
    · exact fun _ _ h _ => hc h

theorem dropLastIf_append (c : Char) (cs : List Char) : dropLastIf c (cs ++ [c]) = cs := by
  rw [dropLastIf, if_pos List.getLast?_concat, List.dropLast_concat]

theorem Literal.decode_eq (H : Literal chars body value) : decode chars = value := by
  rw [H.chars_eq, decode, dropLastIf_append, H.spells.unescape_eq]

theorem Raw.decode_eq (H : Raw chars body) : decode chars = body := by
  rw [H.chars_eq, decode, dropLastIf_append]

/-- Every value is spelled by its escaped form. -/
theorem spells_escaped (v : List Char) : Spells (escaped v) v := by
  fun_induction escaped v with
  | case1 => exact .nil
  | case2 _ ih | case3 _ ih => exact .pair (.other (by decide)) ih
  | case4 _ ih => exact .pair .newline ih
  | case5 c cs hback hquote _ ih => exact .plain hquote hback ih

theorem newline_not_mem_escaped (v : List Char) : '\n' ∉ escaped v := by
  fun_induction escaped v with
  | case1 => exact List.not_mem_nil
  | case2 _ ih | case3 _ ih | case4 _ ih => simp [ih]
  | case5 c cs _ _ hline ih =>
    have hc : '\n' ≠ c := fun h => hline h.symm
    simp [ih, hc]

theorem literal_encode (v : List Char) : Literal (encode v) (escaped v) v :=
  ⟨rfl, newline_not_mem_escaped v, spells_escaped v⟩

end Text.Quoted

open Text.Quoted

namespace Lexeme

/-- A double-quoted literal that is closed, after its opening quote. -/
theorem quotedExtent_closed {cs : List Char} (h : (quotedExtent cs).closed = true) :
    ∃ body value rest, cs = body ++ '"' :: rest ∧ (quotedExtent cs).length = body.length + 1 ∧
      '\n' ∉ body ∧ Spells body value := by
  fun_induction quotedExtent cs with
  | case1 => cases h
  | case2 cs => exact ⟨[], [], cs, rfl, rfl, List.not_mem_nil, .nil⟩
  | case3 => cases h
  | case4 => cases h
  | case5 c cs hc ih =>
    obtain ⟨body, value, rest, rfl, hlength, hline, hspells⟩ := ih h
    have hc' : '\n' ≠ c := fun h' => hc h'.symm
    exact ⟨'\\' :: c :: body, _, rest, rfl, congrArg (· + 2) hlength, by simp [hc', hline],
      .pair (escapes_escape c) hspells⟩
  | case6 c cs hquote hnewline h3 h4 ih =>
    obtain ⟨body, value, rest, rfl, hlength, hline, hspells⟩ := ih h
    have hc : '\n' ≠ c := fun h' => hnewline h'.symm
    -- a backslash gets here only at the end of the text, where no quote is left
    have hback : c ≠ '\\' := by
      rintro rfl
      cases body with
      | nil => exact h4 _ _ rfl rfl
      | cons d ds => exact h4 d (ds ++ '"' :: rest) rfl rfl
    exact ⟨c :: body, _, rest, rfl, congrArg (· + 1) hlength, by simp [hc, hline],
      hspells.plain hquote hback⟩

/-- What spells a value on one line reaches to the next quote. -/
theorem quotedExtent_of_spells {body value : List Char} (H : Spells body value)
    (hline : '\n' ∉ body) (rest : List Char) :
    quotedExtent (body ++ '"' :: rest) = ⟨true, body.length + 1⟩ := by
  induction H with
  | nil => rfl
  | @pair c _ body value _ _ ih =>
    have hc : c ≠ '\n' := fun h => hline (by simp [h])
    have hbody : '\n' ∉ body := fun h => hline (by simp [h])
    rw [List.cons_append, List.cons_append, quotedExtent, ih hbody]
    · rfl
    · exact hc
  | @plain c body value hquote hback _ ih =>
    have hc : c ≠ '\n' := fun h => hline (by simp [h])
    have hbody : '\n' ∉ body := fun h => hline (by simp [h])
    rw [List.cons_append, quotedExtent, ih hbody]
    · rfl
    · exact hquote
    · exact hc
    · exact fun _ h _ => hback h
    · exact fun _ _ h _ => hback h

/-- A backquoted literal that is closed, after its opening backquote. -/
theorem rawExtent_closed {cs : List Char} (h : (rawExtent cs).closed = true) :
    ∃ body rest, cs = body ++ '\x60' :: rest ∧ (rawExtent cs).length = body.length + 1 ∧
      '\x60' ∉ body := by
  fun_induction rawExtent cs with
  | case1 => cases h
  | case2 cs => exact ⟨[], cs, rfl, rfl, List.not_mem_nil⟩
  | case3 c cs hc ih =>
    obtain ⟨body, rest, rfl, hlength, hnot⟩ := ih h
    have hc' : '\x60' ≠ c := fun h' => hc h'.symm
    exact ⟨c :: body, rest, rfl, congrArg (· + 1) hlength, by simp [hc', hnot]⟩

theorem rawExtent_of_not_mem {body : List Char} (h : '\x60' ∉ body) (rest : List Char) :
    rawExtent (body ++ '\x60' :: rest) = ⟨true, body.length + 1⟩ := by
  induction body with
  | nil => rfl
  | cons c body ih =>
    have hc : c ≠ '\x60' := fun h' => h (by simp [h'])
    rw [List.cons_append, rawExtent, ih fun h' => h (.tail _ h')]
    · rfl
    · exact hc

theorem longest_quote (cs : List Char) : longest '"' cs =
    (if (quotedExtent cs).closed then .quoted else .unterminated, (quotedExtent cs).length) := rfl

theorem longest_backquote (cs : List Char) : longest '\x60' cs =
    (if (rawExtent cs).closed then .raw else .unterminated, (rawExtent cs).length) := rfl

theorem longest_of_quoted {c : Char} {cs : List Char} :
    (longest c cs).1 = .quoted → c = '"' := by
  unfold longest
  repeat' split
  all_goals grind

theorem longest_of_raw {c : Char} {cs : List Char} :
    (longest c cs).1 = .raw → c = '\x60' := by
  unfold longest
  repeat' split
  all_goals grind

/-- A lexeme is the longest run where it stands. -/
theorem exists_longest_of_scan {cs : List Char} {us vs : List Lexeme} {l : Lexeme}
    (h : scan cs = us ++ l :: vs) : ∃ c ds, l.shape = (longest c ds).1 ∧
      l.chars = c :: ds.take (longest c ds).2 ∧ vs.flatMap chars = ds.drop (longest c ds).2 := by
  fun_induction scan cs generalizing us with
  | case1 => simp at h
  | case2 c cs shape n hlongest ih =>
    cases us with
    | nil =>
      obtain ⟨rfl, rfl⟩ := List.cons.inj h
      refine ⟨c, cs, ?_, ?_, ?_⟩
      · rw [hlongest]
      · rw [hlongest]
      · rw [flatMap_scan, hlongest]
    | cons u us => exact ih (List.cons.inj h).2

theorem literal_of_longest {cs : List Char} (h : (quotedExtent cs).closed = true) :
    ∃ body value, Literal ('"' :: cs.take (quotedExtent cs).length) body value := by
  obtain ⟨body, value, rest, hcs, hlength, hline, hspells⟩ := quotedExtent_closed h
  refine ⟨body, value, ?_, hline, hspells⟩
  rw [hlength, hcs, List.take_length_add_append]
  rfl

theorem raw_of_longest {cs : List Char} (h : (rawExtent cs).closed = true) :
    ∃ body, Raw ('\x60' :: cs.take (rawExtent cs).length) body := by
  obtain ⟨body, rest, hcs, hlength, hnot⟩ := rawExtent_closed h
  refine ⟨body, ?_, hnot⟩
  rw [hlength, hcs, List.take_length_add_append]
  rfl

/-- What reaches to a delimiter is one lexeme in front of anything. -/
theorem scan_delimited {c d : Char} {shape : Shape} {body rest : List Char}
    (h : longest c (body ++ d :: rest) = (shape, body.length + 1)) :
    scan (c :: (body ++ d :: rest)) = ⟨shape, c :: (body ++ [d])⟩ :: scan rest := by
  have htake : (body ++ d :: rest).take (body.length + 1) = body ++ [d] := by
    rw [List.take_length_add_append]
    rfl
  have hdrop : (body ++ d :: rest).drop (body.length + 1) = rest := by
    rw [List.drop_length_add_append]
    rfl
  rw [scan_cons, h, htake, hdrop]

theorem scan_literal {chars body value : List Char} (H : Literal chars body value)
    (rest : List Char) : scan (chars ++ rest) = ⟨.quoted, chars⟩ :: scan rest := by
  have hchars : chars ++ rest = '"' :: (body ++ '"' :: rest) := by simp [H.chars_eq]
  rw [hchars, H.chars_eq]
  exact scan_delimited (by rw [longest_quote, quotedExtent_of_spells H.spells H.line]; rfl)

theorem scan_raw {chars body : List Char} (H : Raw chars body) (rest : List Char) :
    scan (chars ++ rest) = ⟨.raw, chars⟩ :: scan rest := by
  have hchars : chars ++ rest = '\x60' :: (body ++ '\x60' :: rest) := by simp [H.chars_eq]
  rw [hchars, H.chars_eq]
  exact scan_delimited (by rw [longest_backquote, rawExtent_of_not_mem H.not_mem]; rfl)

section
variable {cs : List Char} {us vs : List Lexeme} {l : Lexeme}

theorem literal_of_scan (h : scan cs = us ++ l :: vs) (hl : l.shape = .quoted) :
    ∃ body value, Literal l.chars body value := by
  obtain ⟨c, ds, hshape, hchars, -⟩ := exists_longest_of_scan h
  rw [hl] at hshape
  obtain rfl := longest_of_quoted hshape.symm
  rw [hchars, longest_quote]
  refine literal_of_longest (by_contra fun hopen => ?_)
  rw [longest_quote, if_neg hopen] at hshape
  cases hshape

theorem shape_of_literal {body value : List Char} (h : scan cs = us ++ l :: vs)
    (H : Literal l.chars body value) : l.shape = .quoted := by
  rw [shape_of_mem_scan (h ▸ List.mem_append_right us (.head vs)), H.chars_eq, shapeOf,
    longest_quote, quotedExtent_of_spells H.spells H.line]
  rfl

theorem raw_of_scan (h : scan cs = us ++ l :: vs) (hl : l.shape = .raw) :
    ∃ body, Raw l.chars body := by
  obtain ⟨c, ds, hshape, hchars, -⟩ := exists_longest_of_scan h
  rw [hl] at hshape
  obtain rfl := longest_of_raw hshape.symm
  rw [hchars, longest_backquote]
  refine raw_of_longest (by_contra fun hopen => ?_)
  rw [longest_backquote, if_neg hopen] at hshape
  cases hshape

/-- A lexeme without meaning that starts with a double quote stays on its line and reaches to the end
of it. -/
theorem open_of_scan (h : scan cs = us ++ l :: vs) (hl : l.shape = .stray ∨ l.shape = .unterminated)
    (hquote : l.chars.head? = some '"') : '\n' ∉ l.chars ∧
      (vs.flatMap chars = [] ∨ (vs.flatMap chars).head? = some '\n') := by
  obtain ⟨c, ds, hshape, hchars, hafter⟩ := exists_longest_of_scan h
  rw [hchars] at hquote
  obtain rfl := Option.some.inj hquote
  rw [longest_quote] at hshape hchars hafter
  have hopen : (quotedExtent ds).closed = false := by
    by_contra hclosed
    rw [if_pos (Bool.eq_true_of_not_eq_false hclosed)] at hshape
    rw [hshape] at hl
    rcases hl with hl | hl <;> cases hl
  obtain ⟨-, hline, hrest⟩ := quotedExtent_open hopen
  rw [hchars, hafter]
  exact ⟨by simp [hline], hrest⟩

end

end Lexeme

/-- A literal, by the kind of its token. -/
theorem Context.shape_of_kindOf_literal {ctx : Context} {l : Lexeme} {ls : List Lexeme}
    (h : ctx.kindOf l ls ∈ [TokenKind.string, .link]) :
    l.shape = .quoted ∨ l.shape = .raw ∧ ctx.kindOf l ls = .string := by
  obtain ⟨shape, chars⟩ := l
  cases shape with
  | quoted => exact .inl rfl
  | raw => exact .inr ⟨rfl, rfl⟩
  | word =>
    have hdisjoint : ∀ k ∈ [TokenKind.blueprintTypeName, .variableName, .fieldName,
        .variableValueRef], k ∉ [TokenKind.string, .link] := by decide
    exact absurd h (hdisjoint _ (kindOf_word_mem ctx.previous (nextSignificant ls) ctx.nesting))
  | _ => exact absurd h (by simp [kindOf])

/-- A token is a lexeme where it stands. -/
theorem exists_lexeme_of_mem {source : String} {t : Token} (ht : t ∈ tokenize source)
    (hkind : t.kind ≠ .eof) : ∃ us l vs, Lexeme.scan source.toList = us ++ l :: vs ∧
      t.kind = (Context.empty.afterAll us).kindOf l vs ∧ t.chars = l.chars ∧
      t.StandsIn source.toList (us.flatMap Lexeme.chars) (vs.flatMap Lexeme.chars) := by
  rcases List.mem_append.1 ht with ht | ht
  · obtain ⟨us, l, vs, hscan, rfl⟩ := TokenStream.mem_place_iff.1 ht
    refine ⟨us, l, vs, hscan, rfl, rfl, .of_span ?_ rfl⟩
    rw [← Lexeme.flatMap_scan source.toList, hscan, List.flatMap_append, List.flatMap_cons,
      List.append_assoc]
  · rw [List.mem_singleton.1 ht] at hkind
    exact absurd rfl hkind

/-- The tokens of literals are a body between two delimiters, and `unquote` gives back what the body
spells, or the body itself when it is backquoted. A double quote that is not closed takes the rest of
its line. -/
theorem tokenize_literals (source : String) : ∀ t ∈ tokenize source,
    (t.kind = .string ∨ t.kind = .link →
      (t.chars.head? = some '"' ∧ ∃ body value, Literal t.chars body value ∧
        unquote t.text = String.ofList value) ∨
      (t.chars.head? = some '\x60' ∧ t.kind = .string ∧ ∃ body, Raw t.chars body ∧
        unquote t.text = String.ofList body)) ∧
    (t.kind = .error → t.chars.head? = some '"' → '\n' ∉ t.chars ∧
      ∃ before after, t.StandsIn source.toList before after ∧
        (after = [] ∨ after.head? = some '\n')) := by
  intro t ht
  have hunquote : unquote t.text = String.ofList (decode t.chars) := by
    rw [unquote, Token.text, String.toList_ofList]
  constructor
  · intro hkind
    have hne : t.kind ≠ .eof := by rcases hkind with h | h <;> rw [h] <;> nofun
    obtain ⟨us, l, vs, hscan, hl, hchars, -⟩ := exists_lexeme_of_mem ht hne
    rw [hunquote, hchars]
    have hmem : (Context.empty.afterAll us).kindOf l vs ∈ [TokenKind.string, .link] := by
      rw [← hl]
      simpa using hkind
    rcases Context.shape_of_kindOf_literal hmem with hshape | ⟨hshape, hstring⟩
    · obtain ⟨body, value, H⟩ := Lexeme.literal_of_scan hscan hshape
      exact .inl ⟨by rw [H.chars_eq]; rfl, body, value, H, by rw [H.decode_eq]⟩
    · obtain ⟨body, H⟩ := Lexeme.raw_of_scan hscan hshape
      exact .inr ⟨by rw [H.chars_eq]; rfl, hl.trans hstring, body, H, by rw [H.decode_eq]⟩
  · intro hkind hquote
    obtain ⟨us, l, vs, hscan, hl, hchars, hstands⟩ := exists_lexeme_of_mem ht (by rw [hkind]; nofun)
    rw [hchars] at hquote ⊢
    obtain ⟨hline, hafter⟩ :=
      Lexeme.open_of_scan hscan (Context.shape_of_kindOf_error (hl.symm.trans hkind)) hquote
    exact ⟨hline, _, _, hstands, hafter⟩

/-- An escaped quote does not close a literal, an escaped letter stands for a newline, and the next
literal is open up to the end of its line. -/
theorem tokenize_literals_escaped_quote :
    let source := "\"\\\"\\n\" \"c\nd"
    ∃ t ∈ tokenize source, ∃ u ∈ tokenize source, t.kind = .string ∧ u.kind = .error ∧
      Literal t.chars ['\\', '"', '\\', 'n'] ['"', '\n'] ∧ unquote t.text = "\"\n" ∧
      '\n' ∉ u.chars ∧ ∃ before after, u.StandsIn source.toList before after ∧
        (after = [] ∨ after.head? = some '\n') := by
  intro source
  have hfirst : (tokenize source)[0]?.map (fun t => (t.kind, t.chars)) =
      some (.string, '"' :: (['\\', '"', '\\', 'n'] ++ ['"'])) := by decide +kernel
  have hthird : (tokenize source)[2]?.map (fun t => (t.kind, t.chars.head?)) =
      some (.error, some '"') := by decide +kernel
  obtain ⟨t, ht, htfirst⟩ := Option.map_eq_some_iff.1 hfirst
  obtain ⟨u, hu, hufirst⟩ := Option.map_eq_some_iff.1 hthird
  obtain ⟨hstring, hchars⟩ := Prod.mk.inj htfirst
  obtain ⟨herror, hopen⟩ := Prod.mk.inj hufirst
  have htmem := List.mem_of_getElem? ht
  have humem := List.mem_of_getElem? hu
  refine ⟨t, htmem, u, humem, hstring, herror, ?_⟩
  have hliteral : Literal t.chars ['\\', '"', '\\', 'n'] ['"', '\n'] ∧ unquote t.text = "\"\n" := by
    rcases (tokenize_literals _ t htmem).1 (.inl hstring) with
      ⟨-, body, value, H, hvalue⟩ | ⟨hback, -⟩
    · have hbody : ['\\', '"', '\\', 'n'] = body :=
        List.append_cancel_right (List.cons.inj (hchars.symm.trans H.chars_eq)).2
      subst hbody
      obtain rfl : ['"', '\n'] = value := H.spells.unescape_eq
      exact ⟨H, hvalue⟩
    · rw [hchars] at hback
      exact absurd hback (by decide)
  exact ⟨hliteral.1, hliteral.2, (tokenize_literals _ u humem).2 herror hopen⟩

end Blueprint
