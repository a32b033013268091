import Mathlib.Data.List.TakeWhile
import Blueprint.Proofs.Token.Partition
import Blueprint.Proofs.Token.Stream

/-!
# Tokens without their layout

The words of a text are its tokens that are not trivia, by kind and characters. They are a matter of
the characters of these tokens alone: a run looks the same wherever it stands
(`Lexeme.shape_of_mem_scan`), and trivia has no part in what surrounds a word
(`TokenStream.words_place`). So texts that differ in trivia only have the same words
(`words_tokenize_eq`).
-/

namespace Blueprint

/-- A token by its kind and its characters, wherever it stands. -/
structure Word where
  kind : TokenKind
  chars : List Char
deriving DecidableEq, Repr

namespace Token

variable {t : Token} {ts us : List Token}

def word (t : Token) : Word := ⟨t.kind, t.chars⟩

/-- The tokens that are not trivia. -/
def significant (ts : List Token) : List Token := ts.filter (!·.isTrivia)

/-- The words that tokens are, trivia left out. -/
def words (ts : List Token) : List Word := (significant ts).map word

@[simp] theorem significant_nil : significant [] = [] := rfl

@[simp] theorem significant_append :
    significant (ts ++ us) = significant ts ++ significant us := List.filter_append ..

@[simp] theorem words_append : words (ts ++ us) = words ts ++ words us := by
  simp [words]

theorem significant_cons_trivia (h : t.isTrivia = true) :
    significant (t :: ts) = significant ts := by
  simp [significant, h]

theorem significant_cons (h : t.isTrivia = false) :
    significant (t :: ts) = t :: significant ts := by
  simp [significant, h]

theorem significant_eq_nil (h : ∀ t ∈ ts, t.isTrivia = true) : significant ts = [] := by
  simpa [significant] using h

/-- A token that is not trivia, and what stands on both sides of it. -/
theorem exists_of_significant {vs ws : List Token} (h : significant ts = vs ++ t :: ws) :
    ∃ as bs, ts = as ++ t :: bs ∧ significant as = vs ∧ significant bs = ws := by
  obtain ⟨as, bs, rfl, ha, hb⟩ := List.filter_eq_append_iff.1 h
  obtain ⟨cs, bs, rfl, hc, -, rfl⟩ := List.filter_eq_cons_iff.1 hb
  have hcs : significant cs = [] := significant_eq_nil fun u hu => by simpa using hc u hu
  refine ⟨as ++ cs, bs, (List.append_assoc _ _ _).symm, ?_, rfl⟩
  rw [significant_append, hcs, List.append_nil]
  exact ha

theorem isTrivia_of_kind {k : TokenKind} (h : t.kind = k) (hk : k.isTrivia = false) :
    t.isTrivia = false := by
  rw [isTrivia, h, hk]

theorem words_cons_trivia (h : t.isTrivia = true) : words (t :: ts) = words ts := by
  rw [words, significant_cons_trivia h, words]

theorem words_cons (h : t.isTrivia = false) : words (t :: ts) = t.word :: words ts := by
  rw [words, significant_cons h, List.map_cons, words]

theorem kindsOf_eq_map_significant : kindsOf ts = (significant ts).map Token.kind := rfl

theorem kindsOf_eq_map_words : kindsOf ts = (words ts).map Word.kind := by
  rw [words, List.map_map]
  rfl

/-- Leaving out the trivia at the front changes nothing. -/
theorem significant_dropWhile : significant (ts.dropWhile isTrivia) = significant ts := by
  induction ts with
  | nil => rfl
  | cons t ts ih =>
    cases h : t.isTrivia with
    | true => rw [List.dropWhile_cons_of_pos h, ih, significant_cons_trivia h]
    | false => rw [List.dropWhile_cons_of_neg (by simp [h])]

end Token

/-! ### A run looks the same wherever it stands -/

namespace Lexeme

theorem take_run (p : Char → Bool) (cs : List Char) : cs.take (run p cs) = cs.takeWhile p :=
  (List.prefix_iff_eq_take.1 (List.takeWhile_prefix p)).symm

theorem closed_quotedExtent_take (cs : List Char) :
    (quotedExtent (cs.take (quotedExtent cs).length)).closed = (quotedExtent cs).closed := by
  fun_induction quotedExtent cs with
  | case1 | case2 | case3 | case4 => rfl
  | case5 c cs hc ih =>
    rw [Extent.add, List.take_succ_cons, List.take_succ_cons, quotedExtent, Extent.add]
    · exact ih
    · exact hc
  | case6 c cs hquote hline h3 h4 ih =>
    -- a backslash gets here only at the end of the text
    have hnil : c = '\\' → cs = [] := by
      intro hc
      cases cs with
      | nil => rfl
      | cons d cs => exact (h4 d cs hc rfl).elim
    rw [Extent.add, List.take_succ_cons, quotedExtent, Extent.add]
    · exact ih
    · exact hquote
    · exact hline
    · intro ds hc h
      rw [hnil hc] at h
      cases h
    · intro d ds hc h
      rw [hnil hc] at h
      cases h

theorem closed_rawExtent_take (cs : List Char) :
    (rawExtent (cs.take (rawExtent cs).length)).closed = (rawExtent cs).closed := by
  fun_induction rawExtent cs with
  | case1 | case2 => rfl
  | case3 c cs hc ih =>
    rw [Extent.add, List.take_succ_cons, rawExtent, Extent.add]
    · exact ih
    · exact hc

theorem shape_longest_slash_take (cs : List Char) :
    (longest '/' (cs.take (longest '/' cs).2)).1 = (longest '/' cs).1 := by
  cases cs with
  | nil => rfl
  | cons d ds =>
    by_cases hslash : d = '/'
    · subst hslash
      rfl
    by_cases hstar : d = '*'
    · subst hstar
      rfl
    have hstray : longest '/' (d :: ds) = (.stray, 0) := by
      simp [longest, isBlank, isWordStart, hslash, hstar]
    rw [hstray]
    rfl

/-- The longest run on its own is still a run of the same shape. -/
theorem shape_longest_take (c : Char) (cs : List Char) :
    (longest c (cs.take (longest c cs).2)).1 = (longest c cs).1 := by
  by_cases hslash : c = '/'
  · rw [hslash]
    exact shape_longest_slash_take cs
  by_cases hblank : isBlank c
  · simp [longest, hblank]
  by_cases hword : isWordStart c
  · simp [longest, hblank, hword, take_run, List.takeWhile_idem]
  by_cases hdigit : c.isDigit
  · simp [longest, hblank, hword, hdigit]
  simp only [longest, hblank, hword, hdigit, Bool.false_eq_true, if_false]
  split
  · cases cs with
    | nil => rfl
    | cons d ds => cases h : d.isDigit <;> simp [h, run]
  · exact absurd rfl hslash
  · simp [closed_quotedExtent_take]
  · simp [closed_rawExtent_take]
  · cases cs with
    | nil => rfl
    | cons d ds => by_cases h : d = '=' <;> simp [h]
  all_goals rfl

/-- The shape that characters have when they are one run. -/
def shapeOf : List Char → Shape
  | [] => .stray
  | c :: cs => (longest c cs).1

theorem shape_of_mem_scan {cs : List Char} {l : Lexeme} (h : l ∈ scan cs) :
    l.shape = shapeOf l.chars := by
  fun_induction scan cs with
  | case1 => cases h
  | case2 c cs shape n hlongest ih =>
    cases h with
    | head =>
      have h := shape_longest_take c cs
      rw [hlongest] at h
      exact h.symm
    | tail _ h => exact ih h

/-- The lexemes that are not trivia. -/
def significant (ls : List Lexeme) : List Lexeme := ls.filter (!·.shape.isTrivia)

theorem significant_cons_trivia {l : Lexeme} {ls : List Lexeme} (h : l.shape.isTrivia = true) :
    significant (l :: ls) = significant ls := by
  simp [significant, h]

theorem significant_cons {l : Lexeme} {ls : List Lexeme} (h : l.shape.isTrivia = false) :
    significant (l :: ls) = l :: significant ls := by
  simp [significant, h]

theorem significant_scan_eq_map (cs : List Char) :
    significant (scan cs) =
      ((significant (scan cs)).map chars).map fun cs => ⟨shapeOf cs, cs⟩ := by
  have h : ∀ l ∈ significant (scan cs), (⟨shapeOf l.chars, l.chars⟩ : Lexeme) = l := by
    intro l hl
    rw [← shape_of_mem_scan ((List.mem_filter.1 hl).1)]
  rw [List.map_map]
  exact (List.map_id _).symm.trans (List.map_congr_left fun l hl => (h l hl).symm)

end Lexeme

/-! ### Trivia has no part in the kinds of words -/

namespace Context

open Lexeme

theorem nextSignificant_significant (ls : List Lexeme) :
    nextSignificant (significant ls) = nextSignificant ls := by
  rw [nextSignificant, significant, List.find?_filter, nextSignificant]
  congr 2
  funext l
  simp

theorem kindOf_significant (ctx : Context) (l : Lexeme) (ls : List Lexeme) :
    ctx.kindOf l (significant ls) = ctx.kindOf l ls := by
  simp only [kindOf, nextSignificant_significant]

theorem after_trivia (ctx : Context) {shape : Shape} (h : shape.isTrivia = true) :
    ctx.after shape = ctx := by
  cases shape with
  | whitespace | comment => rfl
  | _ => cases h

/-- The words that lexemes are after `ctx`, none of them being trivia. -/
def classify (ctx : Context) : List Lexeme → List Word
  | [] => []
  | l :: ls => ⟨ctx.kindOf l ls, l.chars⟩ :: (ctx.after l.shape).classify ls

end Context

namespace TokenStream

open Context Lexeme Token

theorem words_place (index : Nat) (p : Position) (ctx : Context) (ls : List Lexeme) :
    words (place index p ctx ls) = ctx.classify (Lexeme.significant ls) := by
  induction ls generalizing index p ctx with
  | nil => rfl
  | cons l ls ih =>
    have htrivia : ∀ span, isTrivia ⟨index, ctx.kindOf l ls, span, l.chars⟩ = l.shape.isTrivia :=
      fun _ => isTrivia_kindOf ctx l ls
    cases hl : l.shape.isTrivia with
    | true =>
      rw [place, words_cons_trivia ((htrivia _).trans hl), ih, after_trivia ctx hl,
        Lexeme.significant_cons_trivia hl]
    | false =>
      rw [place, words_cons ((htrivia _).trans hl), ih, Lexeme.significant_cons hl, classify,
        kindOf_significant, word]

/-- The words of a text, by its lexemes. -/
theorem words_tokenize (source : String) :
    words (tokenize source) =
      Context.empty.classify (Lexeme.significant (scan source.toList)) ++ [⟨.eof, []⟩] := by
  rw [tokenize, toList, words_append, ofChars, words_place]
  rfl

theorem chars_classify (ctx : Context) (ls : List Lexeme) :
    (ctx.classify ls).map Word.chars = ls.map Lexeme.chars := by
  induction ls generalizing ctx with
  | nil => rfl
  | cons l ls ih => simp only [classify, List.map_cons, ih]

end TokenStream

/-- Texts whose tokens have the same characters, trivia left out, have the same words. -/
theorem words_tokenize_eq {a b : String}
    (h : (Token.significant (tokenize a)).map Token.chars =
      (Token.significant (tokenize b)).map Token.chars) :
    Token.words (tokenize a) = Token.words (tokenize b) := by
  have hchars : ∀ source : String, (Token.significant (tokenize source)).map Token.chars =
      (Lexeme.significant (Lexeme.scan source.toList)).map Lexeme.chars ++ [[]] := by
    intro source
    have hw := congrArg (List.map Word.chars) (TokenStream.words_tokenize source)
    rw [List.map_append, TokenStream.chars_classify, Token.words, List.map_map] at hw
    exact hw
  rw [hchars, hchars, List.append_cancel_right_eq] at h
  rw [TokenStream.words_tokenize, TokenStream.words_tokenize, Lexeme.significant_scan_eq_map, h,
    ← Lexeme.significant_scan_eq_map]

/-! ### Trivia is told by its characters -/

theorem TokenStream.exists_of_mem_place {index : Nat} {p : Position} {ctx : Context}
    {ls : List Lexeme} {t : Token} (h : t ∈ place index p ctx ls) :
    ∃ l ∈ ls, t.chars = l.chars ∧ ∃ ctx' : Context, ∃ rest, t.kind = ctx'.kindOf l rest := by
  induction ls generalizing index p ctx with
  | nil => cases h
  | cons l ls ih =>
    rcases List.mem_cons.1 h with rfl | h
    · exact ⟨l, .head _, rfl, ctx, ls, rfl⟩
    · obtain ⟨l', hl', hrest⟩ := ih h
      exact ⟨l', .tail _ hl', hrest⟩

theorem Context.kindOf_of_isTrivia {l : Lexeme} (h : l.shape.isTrivia = true) (ctx ctx' : Context)
    (ls ls' : List Lexeme) : ctx.kindOf l ls = ctx'.kindOf l ls' := by
  obtain ⟨shape, chars⟩ := l
  cases shape with
  | whitespace | comment => rfl
  | _ => cases h

namespace Token

/-- What stands around trivia does not matter. -/
theorem isTrivia_of_mem_tokenize {source : String} {t : Token} (h : t ∈ tokenize source) :
    t.isTrivia = (Lexeme.shapeOf t.chars).isTrivia ∧ (t.isTrivia = true → ∀ ctx ls,
      t.kind = Context.kindOf ctx ⟨Lexeme.shapeOf t.chars, t.chars⟩ ls) := by
  rcases List.mem_append.1 h with h | h
  · obtain ⟨l, hl, hchars, ctx, ls, hkind⟩ := TokenStream.exists_of_mem_place h
    have hshape : l = ⟨Lexeme.shapeOf t.chars, t.chars⟩ := by
      rw [hchars, ← Lexeme.shape_of_mem_scan hl]
    have htrivia : t.isTrivia = l.shape.isTrivia := by
      rw [isTrivia, hkind, Context.isTrivia_kindOf]
    rw [← hshape]
    refine ⟨?_, fun h ctx' ls' => hkind.trans (Context.kindOf_of_isTrivia (htrivia ▸ h) _ _ _ _)⟩
    rw [htrivia, hshape]
  · obtain rfl := List.mem_singleton.1 h
    exact ⟨rfl, nofun⟩

/-- Trivia is told by its characters. -/
theorem word_eq_of_chars_eq {a b : String} {t u : Token} (ht : t ∈ tokenize a)
    (hu : u ∈ tokenize b) (h : t.chars = u.chars) :
    t.isTrivia = u.isTrivia ∧ (t.isTrivia = true → t.word = u.word) := by
  obtain ⟨htrivia, hkind⟩ := isTrivia_of_mem_tokenize ht
  obtain ⟨htrivia', hkind'⟩ := isTrivia_of_mem_tokenize hu
  rw [h] at htrivia hkind
  refine ⟨htrivia.trans htrivia'.symm, fun hk => ?_⟩
  have hsame := (hkind hk .empty []).trans (hkind' (htrivia'.trans (htrivia.symm.trans hk)) _ _).symm
  rw [word, word, hsame, h]

/-- Tokens of texts that have the same characters are trivia at the same places, and they are the
same words when those are that are not trivia. -/
theorem words_of_chars_eq {a b : String} {ts us : List Token} (hts : ∀ t ∈ ts, t ∈ tokenize a)
    (hus : ∀ u ∈ us, u ∈ tokenize b) (h : ts.map chars = us.map chars) :
    (words ts).map Word.chars = (words us).map Word.chars ∧
      (words ts = words us → ts.map word = us.map word) := by
  induction ts generalizing us with
  | nil =>
    cases List.map_eq_nil_iff.1 h.symm
    exact ⟨rfl, fun _ => rfl⟩
  | cons t ts ih =>
    obtain ⟨u, us, rfl, hu, h⟩ := List.map_eq_cons_iff.1 h.symm
    obtain ⟨htrivia, hword⟩ := word_eq_of_chars_eq (hts t (.head _)) (hus u (.head _)) hu.symm
    obtain ⟨hchars, hrest⟩ := ih (fun t ht => hts t (.tail _ ht)) (fun u hu => hus u (.tail _ hu))
      h.symm
    cases ht : t.isTrivia with
    | true =>
      rw [words_cons_trivia ht, words_cons_trivia (htrivia.symm.trans ht)]
      exact ⟨hchars, fun hwords => List.cons_eq_cons.2 ⟨hword ht, hrest hwords⟩⟩
    | false =>
      rw [words_cons ht, words_cons (htrivia.symm.trans ht)]
      refine ⟨List.cons_eq_cons.2 ⟨hu.symm, hchars⟩, fun hwords => ?_⟩
      obtain ⟨hsame, hwords⟩ := List.cons.inj hwords
      exact List.cons_eq_cons.2 ⟨hsame, hrest hwords⟩

end Token

end Blueprint
