import Blueprint.Proofs.Token.Joint

/-!
# A text between two others

What the tokens are when there is text on lines of its own between two others, and no token but
whitespace goes on past its end (`Lexeme.scan_cut`). The first text is closed, so it keeps its tokens
in front of anything that does not change what its last word is. The text between leaves no bracket
open (`Loose`), and a word that is followed by a brace or by what assigns does not notice what stands
in front, so the second text keeps its tokens too, shifted (`tokenize_between`).
-/

namespace Blueprint

open Text (byteLength)

/-- Outside brackets there is no name of a module or a variable. Brackets that open have their
partners in proper order, and those that close may stand alone. -/
inductive Loose : List TokenKind → Prop
  | nil : Loose []
  | cons {k : TokenKind} {ks : List TokenKind} :
    k ∉ [TokenKind.objectStart, .arrayStart, .blueprintTypeName, .variableName] → Loose ks →
    Loose (k :: ks)
  | group {opening closing : TokenKind} {ks ks' : List TokenKind} :
    opening.closer? = some closing → Balanced ks → Loose ks' →
    Loose (opening :: (ks ++ closing :: ks'))

/-- Where no bracket is open, none is after what is loose. -/
theorem Loose.foldl_afterKind {ks : List TokenKind} (H : Loose ks) :
    ks.foldl Nesting.afterKind [] = [] := by
  induction H with
  | nil => rfl
  | @cons k ks hk _ ih =>
    have hn : Nesting.afterKind [] k = [] := by
      cases k with
      | objectStart | arrayStart => exact absurd (by decide) hk
      | _ => rfl
    rw [List.foldl_cons, hn, ih]
  | @group opening closing ks ks' h H _ ih =>
    have hn : (Nesting.afterKind [] opening).afterKind closing = [] := by
      cases opening <;> cases h <;> rfl
    rw [List.foldl_cons, List.foldl_append, H.foldl_afterKind, List.foldl_cons, hn, ih]

/-- The token starts in front of a place and stops behind it. -/
def Token.Crosses (t : Token) (offset : Nat) : Prop := t.span.start < offset ∧ offset < t.span.stop

instance (t : Token) (offset : Nat) : Decidable (t.Crosses offset) :=
  inferInstanceAs (Decidable (_ ∧ _))

/-- The tokens of a text that lie between two places. -/
def tokensWithin (source : String) (start stop : Nat) : List Token :=
  (tokenize source).filter fun t => start ≤ t.span.start && t.span.stop ≤ stop

theorem tokensWithin_eq {source : String} {start stop : Nat} {front mid back : List Token}
    (h : (TokenStream.ofChars source.toList).body = front ++ (mid ++ back))
    (hstop : stop < byteLength source.toList) (hfront : ∀ t ∈ front, t.span.start < start)
    (hmid : ∀ t ∈ mid, start ≤ t.span.start ∧ t.span.stop ≤ stop)
    (hback : ∀ t ∈ back, stop < t.span.stop) : tokensWithin source start stop = mid := by
  have heof : (TokenStream.ofChars source.toList).eof.span.stop = byteLength source.toList := by
    simp [TokenStream.ofChars, Span.ofText, Position.first]
  have hnone : front.filter (fun t => start ≤ t.span.start && t.span.stop ≤ stop) = [] :=
    List.filter_eq_nil_iff.2 fun t ht => by simp [Nat.not_le.2 (hfront t ht)]
  have hnone' : (back ++ [(TokenStream.ofChars source.toList).eof]).filter
      (fun t => start ≤ t.span.start && t.span.stop ≤ stop) = [] := by
    refine List.filter_eq_nil_iff.2 fun t ht => ?_
    have hlt : stop < t.span.stop := by
      rcases List.mem_append.1 ht with ht | ht
      · exact hback t ht
      · rw [List.mem_singleton.1 ht, heof]
        exact hstop
    simp [Nat.not_le.2 hlt]
  rw [tokensWithin, tokenize, TokenStream.toList, h, List.append_assoc, List.append_assoc,
    List.filter_append, List.filter_append, hnone, hnone',
    List.filter_eq_self.2 fun t ht => by simp [hmid t ht], List.append_nil, List.nil_append]

namespace Lexeme

theorem isBlank_of_longest {c : Char} {cs : List Char} :
    (longest c cs).1 = .whitespace → isBlank c = true := by
  unfold longest
  repeat' split
  all_goals grind

/-- A run of blanks that goes on past a newline has nothing but blanks in front of it. -/
theorem dropWhile_isBlank_eq_nil {c : Char} {us ds : List Char} (hc : isBlank c = true)
    (h : us.length < (longest c (us ++ '\n' :: ds)).2) : us.dropWhile isBlank = [] := by
  by_contra hne
  rw [← drop_run] at hne
  have hrun : (longest c (us ++ '\n' :: ds)).2 = run isBlank (us ++ '\n' :: ds) := by
    simp [longest, hc]
  rw [hrun, run_append hne] at h
  exact Nat.not_lt.2 (List.takeWhile_prefix _).length_le h

/-- Where no run but whitespace goes on past a newline, the newline is part of a run of whitespace,
and behind that the scan starts anew. -/
theorem scan_cut {us ds : List Char}
    (h : ∀ pre l post, scan (us ++ '\n' :: ds) = pre ++ l :: post → l.shape ≠ .whitespace →
      byteLength (pre.flatMap chars) < byteLength us →
      byteLength (pre.flatMap chars) + byteLength l.chars ≤ byteLength us) :
    ∃ ls blanks w, scan (us ++ '\n' :: ds) = ls ++ w :: scan (ds.dropWhile isBlank) ∧
      w.shape = .whitespace ∧ us = ls.flatMap chars ++ blanks ∧
      w.chars = blanks ++ '\n' :: ds.takeWhile isBlank := by
  induction hlen : us.length using Nat.strong_induction_on generalizing us with
  | _ n ih =>
    cases us with
    | nil => exact ⟨[], [], _, scan_blank (by decide) ds, rfl, rfl, rfl⟩
    | cons c us =>
      obtain ⟨⟨shape, m⟩, hlongest⟩ : ∃ r, r = longest c (us ++ '\n' :: ds) := ⟨_, rfl⟩
      have hscan : scan (c :: us ++ '\n' :: ds) = ⟨shape, c :: (us ++ '\n' :: ds).take m⟩ ::
          scan ((us ++ '\n' :: ds).drop m) := by
        rw [List.cons_append, scan_cons, ← hlongest]
      by_cases hm : m ≤ us.length
      · -- the first run ends in front of the newline
        rw [List.take_append_of_le_length hm, List.drop_append_of_le_length hm] at hscan
        have hchars : byteLength (c :: us) =
            byteLength (c :: us.take m) + byteLength (us.drop m) := by
          rw [← Text.byteLength_append, List.cons_append, List.take_append_drop]
        have hrest : ∀ pre l post, scan (us.drop m ++ '\n' :: ds) = pre ++ l :: post →
            l.shape ≠ .whitespace → byteLength (pre.flatMap chars) < byteLength (us.drop m) →
            byteLength (pre.flatMap chars) + byteLength l.chars ≤ byteLength (us.drop m) := by
          intro pre l post hpost hl hlt
          have hle := h (⟨shape, c :: us.take m⟩ :: pre) l post (by rw [hscan, hpost]; rfl) hl
          rw [List.flatMap_cons, Text.byteLength_append, hchars, Nat.add_assoc] at hle
          exact Nat.le_of_add_le_add_left (hle (Nat.add_lt_add_left hlt _))
        obtain ⟨ls, blanks, w, hls, hw, hus, hwchars⟩ := ih (us.drop m).length
          (by rw [List.length_drop, ← hlen, List.length_cons]; omega) hrest rfl
        refine ⟨⟨shape, c :: us.take m⟩ :: ls, blanks, w, ?_, hw, ?_, hwchars⟩
        · rw [hscan, hls, List.cons_append]
        · rw [List.flatMap_cons, List.append_assoc, ← hus, List.cons_append,
            List.take_append_drop]
      · -- the first run takes the newline with it
        have hblank : isBlank c = true := by
          refine @isBlank_of_longest c (us ++ '\n' :: ds) (by_contra fun hshape => ?_)
          rw [← hlongest] at hshape
          have hpos : 0 < byteLength (c :: us) :=
            Nat.lt_of_lt_of_le (Nat.zero_lt_succ _) (Text.length_le_byteLength (c :: us))
          have hle := h [] _ _ hscan hshape hpos
          obtain ⟨k, rfl⟩ := Nat.exists_eq_add_of_lt (Nat.not_le.1 hm)
          rw [List.take_append, List.take_of_length_le (by omega), Nat.add_assoc,
            Nat.add_sub_cancel_left, List.take_succ_cons] at hle
          have hsize := '\n'.utf8Size_pos
          simp only [List.flatMap_nil, Text.byteLength_nil, Text.byteLength_cons,
            Text.byteLength_append] at hle
          omega
        have hall : us.dropWhile isBlank = [] :=
          @dropWhile_isBlank_eq_nil c us ds hblank (by rw [← hlongest]; exact Nat.not_le.1 hm)
        have htake : us.takeWhile isBlank = us := by
          simpa [hall] using List.takeWhile_append_dropWhile (p := isBlank) (l := us)
        refine ⟨[], c :: us, ⟨.whitespace, c :: (us ++ '\n' :: ds).takeWhile isBlank⟩, ?_, rfl, rfl,
          ?_⟩
        · rw [List.cons_append, scan_blank hblank, List.dropWhile_append, hall]
          rfl
        · rw [List.takeWhile_append, htake, if_pos rfl]
          rfl

/-- A front of the runs takes no more bytes than a longer one. -/
theorem byteLength_le_of_prefix {us vs : List Lexeme} (h : us <+: vs) :
    byteLength (us.flatMap chars) ≤ byteLength (vs.flatMap chars) := by
  obtain ⟨ws, rfl⟩ := h
  rw [List.flatMap_append, Text.byteLength_append]
  exact Nat.le_add_right _ _

/-- How the runs of a text between two others lie: those of the first text but for trivia at its
end, whitespace, those of the text between, whitespace, and those of the second text without
whitespace at its front. -/
structure Layout (as js bs : List Char) where
  front : List Lexeme
  gap : List Lexeme
  opening : Lexeme
  mid : List Lexeme
  closing : Lexeme
  scan_first : scan as = front ++ gap
  scan_eq : scan (as ++ '\n' :: js ++ '\n' :: bs) =
    front ++ opening :: (mid ++ closing :: scan (bs.dropWhile isBlank))
  isTrivia_gap : ∀ l ∈ gap, l.shape.isTrivia = true
  shape_opening : opening.shape = .whitespace
  shape_closing : closing.shape = .whitespace
  lt_opening : byteLength as < byteLength ((front ++ [opening]).flatMap chars)
  mid_le : byteLength ((front ++ opening :: mid).flatMap chars) ≤ byteLength (as ++ '\n' :: js)
  lt_closing : byteLength (as ++ '\n' :: js) <
    byteLength ((front ++ opening :: (mid ++ [closing])).flatMap chars)

/-- The runs lie like this when the first text is closed, the text between has a run of its own, and
no run but whitespace goes on past its end. -/
theorem exists_layout {as js bs : List Char} (hshape : ∀ l ∈ scan as, l.shape ≠ .unterminated)
    (hcomment : ∀ l ∈ (scan as).getLast?, ¬OpenComment l.chars)
    (hcut : ∀ pre l post, scan (as ++ '\n' :: js ++ '\n' :: bs) = pre ++ l :: post →
      l.shape ≠ .whitespace → byteLength (pre.flatMap chars) < byteLength (as ++ '\n' :: js) →
      byteLength (pre.flatMap chars) + byteLength l.chars ≤ byteLength (as ++ '\n' :: js))
    {pre post : List Lexeme} {l : Lexeme}
    (hl : scan (as ++ '\n' :: js ++ '\n' :: bs) = pre ++ l :: post)
    (hstart : byteLength as < byteLength (pre.flatMap chars))
    (hstop : byteLength (pre.flatMap chars) + byteLength l.chars ≤ byteLength (as ++ '\n' :: js)) :
    Nonempty (Layout as js bs) := by
  obtain ⟨ls, gap, w, hls, hgap, hw, hscan⟩ := scan_newline hshape hcomment (js ++ '\n' :: bs)
  obtain ⟨ls', blanks, w', hscan', hw', hus, hchars⟩ := scan_cut hcut
  rw [← List.cons_append, ← List.append_assoc] at hscan
  have hfirst : byteLength (ls.flatMap chars) ≤ byteLength as := by
    have hle := byteLength_le_of_prefix (List.prefix_append ls gap)
    rwa [← hls, flatMap_scan] at hle
  have hlast : byteLength (as ++ '\n' :: js) < byteLength ((ls' ++ [w']).flatMap chars) := by
    have hsize := '\n'.utf8Size_pos
    rw [hus, List.flatMap_append, List.flatMap_singleton, hchars]
    simp only [Text.byteLength_append, Text.byteLength_cons]
    omega
  -- the run lies behind `ls` and `w`, and in front of `w'`
  have hlt : ls.length < pre.length := by
    by_contra hle
    have hprefix : pre <+: ls := List.prefix_of_prefix_length_le ⟨_, hl.symm⟩ ⟨_, hscan.symm⟩
      (Nat.not_lt.1 hle)
    have := byteLength_le_of_prefix hprefix
    omega
  have hlt' : pre.length < ls'.length := by
    by_contra hle
    have hprefix : ls' ++ [w'] <+: pre ++ [l] := by
      have hfront : ls' ++ [w'] ++ scan (bs.dropWhile isBlank) = pre ++ [l] ++ post := by
        rw [List.append_assoc, List.append_assoc]
        exact hscan'.symm.trans hl
      exact List.prefix_of_prefix_length_le ⟨_, hfront⟩ ⟨post, rfl⟩ (by simpa using hle)
    have hle := byteLength_le_of_prefix hprefix
    simp only [List.flatMap_append, List.flatMap_singleton, Text.byteLength_append] at hle hlast hstop
    omega
  obtain ⟨mid, hmid⟩ : ls ++ [w] <+: ls' := by
    have hfront : ls ++ [w] ++ scan ((js ++ '\n' :: bs).dropWhile isBlank) =
        ls' ++ w' :: scan (bs.dropWhile isBlank) := by
      rw [List.append_assoc]
      exact hscan.symm.trans hscan'
    refine List.prefix_of_prefix_length_le ⟨_, hfront⟩ ⟨_, rfl⟩ ?_
    rw [List.length_append, List.length_singleton]
    omega
  rw [List.append_assoc, List.singleton_append] at hmid
  refine ⟨⟨ls, gap, w, mid, w', hls, ?_, hgap, hw, hw', ?_, ?_, ?_⟩⟩
  · rw [hscan', ← hmid, List.append_assoc, List.cons_append]
  · have hbytes := congrArg byteLength (congrArg (List.flatMap chars) hscan)
    have hdrop := congrArg byteLength
      (List.takeWhile_append_dropWhile (p := isBlank) (l := js ++ '\n' :: bs))
    have hsize := '\n'.utf8Size_pos
    simp only [flatMap_scan, List.flatMap_append, List.flatMap_cons, List.flatMap_nil,
      List.append_nil, Text.byteLength_append, Text.byteLength_cons] at hbytes hdrop ⊢
    omega
  · rw [hmid, hus, Text.byteLength_append]
    exact Nat.le_add_right _ _
  · rwa [← List.cons_append, ← List.append_assoc, hmid]

namespace Layout

variable {as js bs : List Char} (L : Layout as js bs)

theorem front_lt : byteLength (L.front.flatMap chars) < byteLength as + 1 := by
  have hle := byteLength_le_of_prefix (List.prefix_append L.front L.gap)
  rw [← L.scan_first, flatMap_scan] at hle
  exact Nat.lt_succ_of_le hle

theorem isTrivia_opening : L.opening.shape.isTrivia = true := by
  rw [L.shape_opening]
  rfl

theorem isTrivia_closing : L.closing.shape.isTrivia = true := by
  rw [L.shape_closing]
  rfl

/-- The brackets that are open where the text between starts are those that the first text leaves
open. -/
theorem nesting_opening : (Context.empty.afterAll (L.front ++ [L.opening])).nesting =
    (Context.empty.afterAll (scan as)).nesting := by
  rw [L.scan_first, Context.afterAll_append, Context.afterAll_append,
    Context.afterAll_trivia _ L.isTrivia_gap,
    Context.afterAll_trivia _ (by simpa using L.isTrivia_opening)]

end Layout

end Lexeme

namespace Context

/-- Braces and what assigns tell what a word before them is. -/
theorem not_inert_of_kindOf {ctx : Context} {l : Lexeme} {ls : List Lexeme}
    (h : ctx.kindOf l ls ∈ [TokenKind.objectStart, .equals, .plusEquals]) :
    ¬Shape.Inert (nextSignificant (l :: ls)) := by
  have hmem := kindOf_word_mem ctx.previous (nextSignificant ls) ctx.nesting
  obtain ⟨shape, chars⟩ := l
  cases shape with
  | openBrace | equals | colon | plusEquals =>
    rintro ⟨hbrace, hassigns⟩
    simp [nextSignificant, Shape.isTrivia, Shape.assigns] at hbrace hassigns
  | word =>
    change wordKind ctx.previous (nextSignificant ls) ctx.nesting ∈ _ at h
    generalize wordKind ctx.previous (nextSignificant ls) ctx.nesting = k at h hmem
    simp only [List.mem_cons, List.not_mem_nil, or_false] at hmem
    rcases hmem with rfl | rfl | rfl | rfl <;> simp at h
  | quoted => simp only [kindOf] at h; split at h <;> simp at h
  | _ => simp [kindOf] at h

/-- Outside brackets a word that is told by what comes next is what it is at the start of a text. -/
theorem kindOf_word_told {ctx : Context} (hnesting : ctx.nesting = []) {l : Lexeme}
    (hl : l.shape = .word) {ls : List Lexeme} (h : ¬Shape.Inert (nextSignificant ls)) :
    ctx.kindOf l ls = Context.empty.kindOf l ls := by
  simp only [kindOf, hl, wordKind, hnesting]
  by_cases hbrace : nextSignificant ls = some .openBrace
  · rw [if_pos hbrace, if_pos hbrace]
  · have hassigns : (nextSignificant ls).any Shape.assigns = true := by
      by_contra hassigns
      exact h ⟨hbrace, Bool.eq_false_iff.2 hassigns⟩
    rw [if_neg hbrace, if_neg hbrace, hassigns]
    rfl

end Context

namespace TokenStream

open Context Token

/-- The tokens that lexemes become, one by one. -/
theorem mem_place_iff {index : Nat} {p : Position} {ctx : Context} {ls : List Lexeme} {t : Token} :
    t ∈ place index p ctx ls ↔ ∃ us l vs, ls = us ++ l :: vs ∧
      t = ⟨index + us.length, (ctx.afterAll us).kindOf l vs,
        Span.ofText (p.after (us.flatMap Lexeme.chars)) l.chars, l.chars⟩ := by
  constructor
  · intro h
    induction ls generalizing index p ctx with
    | nil => cases h
    | cons l ls ih =>
      rcases List.mem_cons.1 h with rfl | h
      · exact ⟨[], l, ls, rfl, rfl⟩
      · obtain ⟨us, l', vs, rfl, rfl⟩ := ih h
        refine ⟨l :: us, l', vs, rfl, ?_⟩
        rw [List.flatMap_cons, Position.after_append, List.length_cons, Nat.add_right_comm index 1]
        rfl
  · rintro ⟨us, l, vs, rfl, rfl⟩
    obtain ⟨ts, hts, -⟩ := place_append index p ctx us (l :: vs)
    rw [hts]
    exact List.mem_append_right _ (.head _)

/-- Where the tokens at the front of a text lie. -/
theorem span_of_mem_front {index : Nat} {p : Position} {ctx : Context} {us vs : List Lexeme}
    {t : Token} {ts ts' : List Token} (h : place index p ctx (us ++ vs) = ts ++ ts')
    (hlen : ts.length = us.length) (ht : t ∈ ts) : p.offset ≤ t.span.start ∧
      t.span.start ≤ t.span.stop ∧
      t.span.stop ≤ p.offset + byteLength (us.flatMap Lexeme.chars) := by
  induction us generalizing index p ctx ts with
  | nil =>
    rw [List.eq_nil_of_length_eq_zero hlen] at ht
    cases ht
  | cons l us ih =>
    cases ts with
    | nil => cases ht
    | cons u ts =>
      obtain ⟨rfl, hrest⟩ := List.cons.inj h
      rw [List.flatMap_cons, Text.byteLength_append]
      rcases List.mem_cons.1 ht with rfl | ht
      · simp only [Span.ofText]
        omega
      · have hspan := ih hrest (Nat.succ.inj hlen) ht
        rw [Position.offset_after] at hspan
        omega

/-- Where the tokens of a part of a text lie. -/
theorem span_of_mem_place {index : Nat} {p : Position} {ctx : Context} {ls : List Lexeme}
    {t : Token} (h : t ∈ place index p ctx ls) : p.offset ≤ t.span.start ∧
      t.span.start ≤ t.span.stop ∧
      t.span.stop ≤ p.offset + byteLength (ls.flatMap Lexeme.chars) := by
  have hall : place index p ctx (ls ++ []) = place index p ctx ls ++ [] := by
    rw [List.append_nil, List.append_nil]
  exact span_of_mem_front hall (length_place index p ctx ls) h

/-- The tokens `ts` are those of `as`, then `mid` and then those of `bs`, shifted, but for trivia
where they meet. -/
structure Between (d : Shift) (as bs ts : TokenStream) (mid : List Token) where
  front : List Token
  gap : List Token
  before : List Token
  behind : List Token
  lead : List Token
  rest : List Token
  body_first : as.body = front ++ gap
  body_second : bs.body = lead ++ rest
  body_eq : ts.body = front ++ (before ++ (mid ++ (behind ++ rest.map d.token)))
  eof_eq : ts.eof = d.token bs.eof
  isTrivia_gap : ∀ t ∈ gap, t.isTrivia = true
  isTrivia_before : ∀ t ∈ before, t.isTrivia = true
  isTrivia_behind : ∀ t ∈ behind, t.isTrivia = true
  isTrivia_lead : ∀ t ∈ lead, t.isTrivia = true
  isTrivia_head : ∀ t ∈ (rest ++ [bs.eof]).head?, t.isTrivia = false

namespace Between

variable {d : Shift} {as bs ts : TokenStream} {mid : List Token} (B : Between d as bs ts mid)

theorem significant_front : significant B.front = significant as.body := by
  rw [B.body_first, significant_append, significant_eq_nil B.isTrivia_gap, List.append_nil]

theorem significant_rest : significant B.rest = significant bs.body := by
  rw [B.body_second, significant_append, significant_eq_nil B.isTrivia_lead, List.nil_append]

theorem significant_body : significant ts.body =
    significant as.body ++ (significant mid ++ significant (B.rest.map d.token)) := by
  rw [B.body_eq]
  simp only [significant_append, B.significant_front, significant_eq_nil B.isTrivia_before,
    significant_eq_nil B.isTrivia_behind, List.nil_append]

end Between

/-- Between two places that cut the runs of a text inside `w` and `w'` lie the tokens that the runs
between these two become. -/
theorem place_within {source : String} {ls mid xs : List Lexeme} {w w' : Lexeme} {start stop : Nat}
    (hscan : Lexeme.scan source.toList = ls ++ w :: (mid ++ w' :: xs))
    (hls : byteLength (ls.flatMap Lexeme.chars) < start)
    (hw : start ≤ byteLength ((ls ++ [w]).flatMap Lexeme.chars))
    (hmid : byteLength ((ls ++ w :: mid).flatMap Lexeme.chars) ≤ stop)
    (hw' : stop < byteLength ((ls ++ w :: (mid ++ [w'])).flatMap Lexeme.chars))
    (hinert : Shape.Inert (nextSignificant (w' :: xs))) :
    tokensWithin source start stop =
      place (ls.length + 1) (Position.first.after ((ls ++ [w]).flatMap Lexeme.chars))
        (Context.empty.afterAll (ls ++ [w])) mid := by
  obtain ⟨front, hfront, -⟩ := place_append 0 .first .empty ls (w :: (mid ++ w' :: xs))
  obtain ⟨middle, hmiddle, -, hcongr⟩ := place_append (0 + ls.length + 1)
    ((Position.first.after (ls.flatMap Lexeme.chars)).after w.chars)
    ((Context.empty.afterAll ls).after w.shape) mid (w' :: xs)
  have hlen := congrArg List.length hfront
  have hlen' := congrArg List.length hmiddle
  simp only [List.length_append, length_place] at hlen hlen'
  have hwithin : tokensWithin source start stop = middle := by
    simp only [List.flatMap_append, List.flatMap_cons, List.flatMap_nil, List.append_nil,
      Text.byteLength_append] at hw hmid hw'
    have hbytes := congrArg byteLength (congrArg (List.flatMap Lexeme.chars) hscan)
    simp only [Lexeme.flatMap_scan, List.flatMap_append, List.flatMap_cons,
      Text.byteLength_append] at hbytes
    have hbody := hfront
    rw [← hscan, place, hmiddle, List.append_cons] at hbody
    refine tokensWithin_eq hbody (by omega) (fun t ht => ?_) (fun t ht => ?_) fun t ht => ?_
    · rcases List.mem_append.1 ht with ht | ht
      · have hspan := span_of_mem_front hfront (Nat.add_right_cancel hlen).symm ht
        simp only [Position.first] at hspan
        omega
      · rw [List.mem_singleton.1 ht]
        simpa [Span.ofText, Position.first] using hls
    · have hspan := span_of_mem_front hmiddle (Nat.add_right_cancel hlen').symm ht
      simp only [Position.first, Position.offset_after] at hspan
      omega
    · rcases List.mem_cons.1 ht with rfl | ht
      · simp only [Span.ofText, Position.offset_after, Position.first]
        omega
      · have hspan := span_of_mem_place ht
        simp only [Position.first, Position.offset_after] at hspan
        omega
  have hmid := hcongr [] hinert ⟨by simp [nextSignificant], rfl⟩
  rw [List.append_nil, place, List.append_nil, Nat.zero_add] at hmid
  rw [hwithin, ← hmid, List.flatMap_append, Position.after_append, List.flatMap_singleton,
    afterAll_append]
  rfl

theorem kindOf_ne_whitespace {ctx : Context} {l : Lexeme} {ls : List Lexeme}
    (hl : l.shape ≠ .whitespace) : ctx.kindOf l ls ≠ .whitespace := by
  have hmem := kindOf_word_mem ctx.previous (nextSignificant ls) ctx.nesting
  obtain ⟨shape, chars⟩ := l
  cases shape with
  | whitespace => exact absurd rfl hl
  | word =>
    intro h
    rw [show wordKind ctx.previous (nextSignificant ls) ctx.nesting = .whitespace from h] at hmem
    exact absurd hmem (by decide)
  | quoted => simp only [kindOf]; split <;> simp
  | _ => simp [kindOf]

/-- Where no token but whitespace crosses a place, no run but whitespace does. -/
theorem le_of_not_crosses {source : String} {n : Nat} {us vs : List Lexeme} {l : Lexeme}
    (h : ∀ t ∈ tokenize source, t.kind ≠ .whitespace → ¬t.Crosses n)
    (hscan : Lexeme.scan source.toList = us ++ l :: vs) (hl : l.shape ≠ .whitespace)
    (hlt : byteLength (us.flatMap Lexeme.chars) < n) :
    byteLength (us.flatMap Lexeme.chars) + byteLength l.chars ≤ n := by
  have hmem := @mem_place_iff 0 .first .empty (Lexeme.scan source.toList) _ |>.2
    ⟨us, l, vs, hscan, rfl⟩
  have hcross := h _ (List.mem_append_left _ hmem) (kindOf_ne_whitespace hl)
  simp only [Crosses, Span.ofText, Position.offset_after, Position.first, Nat.zero_add] at hcross
  omega

/-- A token of a text that is not the last one is a run. -/
theorem exists_scan_of_mem {source : String} {t : Token} (ht : t ∈ tokenize source)
    (hlt : t.span.stop < byteLength source.toList) :
    ∃ us l vs, Lexeme.scan source.toList = us ++ l :: vs ∧
      t.span.start = byteLength (us.flatMap Lexeme.chars) ∧
      t.span.stop = byteLength (us.flatMap Lexeme.chars) + byteLength l.chars := by
  rcases List.mem_append.1 ht with ht | ht
  · obtain ⟨us, l, vs, hscan, rfl⟩ := mem_place_iff.1 ht
    refine ⟨us, l, vs, hscan, ?_, ?_⟩ <;> simp [Span.ofText, Position.first]
  · rw [List.mem_singleton.1 ht] at hlt
    simp [ofChars, Span.ofText, Position.first] at hlt

open Context in
/-- Tokens tell nothing about a word in front of them when the first one is no brace and assigns
nothing. -/
theorem inert_of_place {index : Nat} {p : Position} {ctx : Context} {ls : List Lexeme}
    {k : TokenKind} {ks : List TokenKind} (h : kindsOf (place index p ctx ls) = k :: ks)
    (hk : k ∉ [TokenKind.objectStart, .equals, .plusEquals]) :
    Shape.Inert (nextSignificant ls) := by
  obtain ⟨us, l, vs, ctx, rfl, hus, hl, rfl, -⟩ := exists_first h
  rw [nextSignificant_append, nextSignificant_trivia hus, Option.none_or]
  refine @inert_of_kindOf ctx l vs fun hmem => ?_
  have hkind : (ctx.kindOf l vs).isTrivia = false := by rw [isTrivia_kindOf, hl]
  generalize ctx.kindOf l vs = k at hk hmem hkind
  simp only [List.mem_cons, List.not_mem_nil, or_false] at hk hmem
  rcases hmem with h | h | h | rfl | rfl
  · exact hk (.inl h)
  · exact hk (.inr (.inl h))
  · exact hk (.inr (.inr h))
  · cases hkind
  · cases hkind

/-- The name of an item that comes first, behind trivia, and is told by a brace or by what assigns. -/
theorem exists_word_told {index : Nat} {p : Position} {ctx : Context} {ls : List Lexeme}
    {k₁ k₂ : TokenKind} {ks : List TokenKind} (h : kindsOf (place index p ctx ls) = k₁ :: k₂ :: ks)
    (hname : k₁ ∈ [TokenKind.blueprintTypeName, .variableName])
    (htold : k₂ ∈ [TokenKind.objectStart, .equals, .plusEquals]) :
    ∃ us l vs, ls = us ++ l :: vs ∧ (∀ l' ∈ us, l'.shape.isTrivia = true) ∧ l.shape = .word ∧
      ¬Shape.Inert (nextSignificant vs) := by
  obtain ⟨us, l, vs, _, hls, hus, -, rfl, _, _, hvs⟩ := exists_first h
  obtain ⟨us', l', vs', _, rfl, hus', -, rfl, -⟩ := exists_first hvs
  refine ⟨us, l, _, hls, hus, shape_of_kindOf_name hname, ?_⟩
  rw [nextSignificant_append, nextSignificant_trivia hus', Option.none_or]
  exact not_inert_of_kindOf htold

/-- How the runs lie when the text between has a token of its own. -/
theorem exists_layout_of_mem {as js bs : List Char} {c : String}
    (hc : c.toList = as ++ '\n' :: js ++ '\n' :: bs) (H : (ofChars as).Closed)
    (hcut : ∀ t ∈ tokenize c, t.kind ≠ .whitespace → ¬t.Crosses (byteLength (as ++ '\n' :: js)))
    {t : Token} (ht : t ∈ tokensWithin c (byteLength as + 1) (byteLength (as ++ '\n' :: js))) :
    Nonempty (Lexeme.Layout as js bs) := by
  obtain ⟨ht, hspan⟩ := List.mem_filter.1 ht
  rw [Bool.and_eq_true, decide_eq_true_iff, decide_eq_true_iff] at hspan
  have hsize := '\n'.utf8Size_pos
  obtain ⟨pre, l, post, hpre, hs, he⟩ := exists_scan_of_mem ht (by
    rw [hc, Text.byteLength_append, Text.byteLength_cons]
    omega)
  rw [hc] at hpre
  refine Lexeme.exists_layout H.shape_ne H.chars_not_openComment (fun pre l post hpost hl hlt => ?_)
    hpre (by omega) (by omega)
  exact le_of_not_crosses hcut (by rw [hc, hpost]) hl hlt

end TokenStream

open TokenStream Lexeme in
/-- A text has no more tokens than one that ends with it, on lines of its own, when no token but
whitespace crosses the end of what is in front. -/
theorem length_tokenize_le_of_cut {a b c : String} (hc : c = a ++ "\n" ++ b)
    (hcut : ∀ t ∈ tokenize c, t.kind ≠ .whitespace → ¬t.Crosses (byteLength a.toList)) :
    (tokenize b).length ≤ (tokenize c).length := by
  have hchars : c.toList = a.toList ++ '\n' :: b.toList := by simp [hc]
  obtain ⟨ls, -, w, hscan, -⟩ := @scan_cut a.toList b.toList
    fun pre l post hpost hl hlt => le_of_not_crosses hcut (by rw [hchars, hpost]) hl hlt
  obtain ⟨us, hus, hlen, -⟩ := scan_dropWhile b.toList
  simp only [tokenize, toList, ofChars, List.length_append, length_place, hchars, hscan, hus,
    List.length_cons]
  omega

open TokenStream Context Lexeme Token in
/-- The tokens of a closed text, of loose text on lines of its own and of a text that starts with
the name of an item are those of the one, and then those of the other. -/
theorem tokenize_between {a j b c : String} (hc : c = a ++ "\n" ++ j ++ "\n" ++ b)
    (H : (ofChars a.toList).Closed)
    (hcut : ∀ t ∈ tokenize c, t.kind ≠ .whitespace →
      ¬t.Crosses (a.utf8ByteSize + 1 + j.utf8ByteSize))
    {k k₁ k₂ : TokenKind} {ks ks' : List TokenKind}
    (hjunk : kindsOf (tokensWithin c (a.utf8ByteSize + 1) (a.utf8ByteSize + 1 + j.utf8ByteSize)) =
      k :: ks)
    (hfirst : k ∉ [TokenKind.objectStart, .equals, .plusEquals]) (hloose : Loose (k :: ks))
    (hb : kindsOf (ofChars b.toList).body = k₁ :: k₂ :: ks')
    (hname : k₁ ∈ [TokenKind.blueprintTypeName, .variableName])
    (htold : k₂ ∈ [TokenKind.objectStart, .equals, .plusEquals]) :
    ∃ d : Shift, d.offset = a.utf8ByteSize + 1 + j.utf8ByteSize + 1 ∧
      d.line = (a.toList ++ '\n' :: j.toList).count '\n' + 1 ∧
      Nonempty (Between d (ofChars a.toList) (ofChars b.toList) (ofChars c.toList)
        (tokensWithin c (a.utf8ByteSize + 1) (a.utf8ByteSize + 1 + j.utf8ByteSize))) := by
  have hchars : c.toList = a.toList ++ '\n' :: j.toList ++ '\n' :: b.toList := by simp [hc]
  have hsize : '\n'.utf8Size = 1 := by decide
  have hstop : a.utf8ByteSize + 1 + j.utf8ByteSize = byteLength (a.toList ++ '\n' :: j.toList) := by
    rw [Text.byteLength_append, Text.byteLength_cons, Text.byteLength_toList,
      Text.byteLength_toList, hsize, Nat.add_assoc]
  have hstart : a.utf8ByteSize + 1 = byteLength a.toList + 1 := by rw [Text.byteLength_toList]
  rw [hstop, hstart] at hjunk ⊢
  rw [hstop] at hcut
  -- the junk has a token, so it has a run
  obtain ⟨t, ht⟩ : ∃ t, t ∈ tokensWithin c (byteLength a.toList + 1)
      (byteLength (a.toList ++ '\n' :: j.toList)) := by
    refine List.exists_mem_of_ne_nil _ fun hnil => ?_
    rw [hnil] at hjunk
    cases hjunk
  obtain ⟨L⟩ := exists_layout_of_mem hchars H hcut ht
  -- the second text starts with a word that is told by what comes next
  obtain ⟨us, l, vs, hbs, hus, hl, hnext⟩ := exists_word_told hb hname htold
  have hword : l.shape.isTrivia = false := by rw [hl]; rfl
  obtain ⟨us', hdrop, hus', hlen⟩ := scan_dropWhile_cons hbs hus hword
  have hscan := L.scan_eq
  rw [hdrop] at hscan
  have htrivia : ∀ l' ∈ L.closing :: us', l'.shape.isTrivia = true :=
    List.forall_mem_cons.2 ⟨L.isTrivia_closing, hus'⟩
  have hinert : Shape.Inert (nextSignificant (L.closing :: (us' ++ l :: vs))) := by
    rw [← List.cons_append, nextSignificant_append, nextSignificant_trivia htrivia, Option.none_or,
      nextSignificant_cons hword, hl]
    exact ⟨by simp, rfl⟩
  have hwithin := place_within (hchars ▸ hscan) L.front_lt L.lt_opening L.mid_le L.lt_closing hinert
  rw [hwithin] at hjunk ⊢
  -- the junk leaves no bracket open, as the first text does
  have hnesting : (Context.empty.afterAll (L.front ++ [L.opening] ++ L.mid)).nesting = [] := by
    rw [afterAll_append, nesting_afterAll (L.front.length + 1), hjunk, L.nesting_opening,
      H.nesting_eq]
    exact hloose.foldl_afterKind
  obtain ⟨d, hindex, hoffset, hline⟩ : ∃ d : Shift,
      d.index = L.front.length + 1 + L.mid.length + (us'.length + 1) - us.length ∧
      d.offset = byteLength (a.toList ++ '\n' :: j.toList) + 1 ∧
      d.line = (a.toList ++ '\n' :: j.toList).count '\n' + 1 := ⟨⟨_, _, _, 0⟩, rfl, rfl, rfl⟩
  have hposition : Position.first.after
      ((L.front ++ [L.opening] ++ L.mid ++ (L.closing :: us')).flatMap Lexeme.chars) =
        d.position (Position.first.after (us.flatMap Lexeme.chars)) := by
    refine after_flatMap_scan hoffset hline (hscan.trans ?_) hbs
    simp only [List.append_assoc, List.cons_append, List.nil_append]
  obtain ⟨front, ts, bs, es, lead, rest, hts, hlead, hall, hgap, hbefore, hbehind, hlead', t, us,
    hrest, ht⟩ := @place_between L.front L.gap us vs [L.opening] L.mid (L.closing :: us') l d
      L.isTrivia_gap hus (by simpa using L.isTrivia_opening) htrivia hl
      (inert_of_place hjunk hfirst) hnesting (kindOf_word_told hnesting hl hnext)
      (by simp only [List.length_append, List.length_cons, List.length_nil]; omega) hposition
  rw [← L.scan_first] at hts
  rw [← hbs] at hlead
  rw [List.singleton_append, List.cons_append, ← hscan, ← hchars] at hall
  have heof : (ofChars c.toList).eof = d.token (ofChars b.toList).eof := by
    rw [hchars]
    refine eof_newline hoffset hline ?_
    rw [hscan, hbs, hindex]
    simp only [List.length_append, List.length_cons]
    omega
  refine ⟨d, hoffset, hline,
    ⟨⟨front, ts, bs, es, lead, rest, hts, hlead, hall, heof, hgap, hbefore, hbehind, hlead', ?_⟩⟩⟩
  rw [hrest]
  rintro _ ⟨⟩
  exact ht

end Blueprint
