import Blueprint.Proofs.Token.Splice
import Blueprint.Proofs.Tree.Shift

/-!
# Texts one after the other

What the tokens of two texts are with a newline between them. A newline ends every run but
whitespace, literals and comments that are not closed, so around it there is one run of whitespace
more, or a longer one (`Lexeme.scan_newline`). In front of it a word stays what it is, since another
word comes next; behind it a word does not notice what stands in front, when no bracket is open and
nothing waits for a value (`tokenize_joined`).
-/

namespace Blueprint

namespace Lexeme

/-- The characters are a block comment that is not closed. -/
def OpenComment (cs : List Char) : Prop := ['/', '*'] <+: cs ∧ ¬['*', '/'] <:+: cs.drop 2

instance : DecidablePred OpenComment := fun cs =>
  inferInstanceAs (Decidable (['/', '*'] <+: cs ∧ ¬['*', '/'] <:+: cs.drop 2))

/-! ### Runs in front of a newline -/

theorem run_newline {p : Char → Bool} (hp : p '\n' = false) (cs ds : List Char) :
    run p (cs ++ '\n' :: ds) = run p cs := by
  induction cs with
  | nil => simp [run, hp]
  | cons c cs ih =>
    cases h : p c with
    | true => simpa [run, h] using ih
    | false => simp [run, h]

theorem drop_run (p : Char → Bool) (cs : List Char) : cs.drop (run p cs) = cs.dropWhile p := by
  induction cs with
  | nil => rfl
  | cons c cs ih =>
    cases h : p c with
    | true => simpa [run, h] using ih
    | false => simp [run, h]

/-- A run that stops goes no further when more text comes. -/
theorem run_append {p : Char → Bool} {cs : List Char} (h : cs.drop (run p cs) ≠ [])
    (ds : List Char) : run p (cs ++ ds) = run p cs := by
  induction cs with
  | nil => exact absurd rfl h
  | cons c cs ih =>
    cases hc : p c with
    | true =>
      simp only [run, hc, List.takeWhile_cons_of_pos, List.length_cons, List.drop_succ_cons] at h
      simpa [run, hc] using ih h
    | false => simp [run, hc]

theorem commentLength_append {cs : List Char} (h : ['*', '/'] <:+: cs) (ds : List Char) :
    commentLength (cs ++ ds) = commentLength cs := by
  fun_induction commentLength cs with
  | case1 => simp at h
  | case2 => rfl
  | case3 c cs hc ih =>
    have hcs : ['*', '/'] <:+: cs := by
      rcases List.infix_cons_iff.1 h with h | h
      · obtain ⟨us, hus⟩ := h
        obtain ⟨rfl, rfl⟩ := List.cons.inj hus
        exact (hc us rfl rfl).elim
      · exact h
    rw [List.cons_append, commentLength, ih hcs]
    intro us hstar hus
    cases cs with
    | nil => simp at hcs
    | cons d cs =>
      obtain ⟨rfl, -⟩ := List.cons.inj hus
      exact hc cs hstar rfl

theorem commentLength_of_open {cs : List Char} (h : ¬['*', '/'] <:+: cs) :
    commentLength cs = cs.length := by
  fun_induction commentLength cs with
  | case1 => rfl
  | case2 cs => exact absurd ⟨[], cs, rfl⟩ h
  | case3 c cs hc ih =>
    rw [ih fun hcs => h (hcs.trans (List.suffix_cons _ _).isInfix), List.length_cons]

theorem quotedExtent_newline (cs ds : List Char) :
    quotedExtent (cs ++ '\n' :: ds) = quotedExtent cs := by
  fun_induction quotedExtent cs with
  | case1 | case2 | case3 | case4 => simp [quotedExtent]
  | case5 c cs hc ih =>
    rw [List.cons_append, List.cons_append, quotedExtent, ih]
    exact hc
  | case6 c cs hquote hline h3 h4 ih =>
    -- a backslash gets here only at the end of the text, where it takes the newline with it
    by_cases hc : c = '\\'
    · cases cs with
      | nil =>
        subst hc
        rfl
      | cons d cs => exact (h4 d cs hc rfl).elim
    · rw [List.cons_append, quotedExtent, ih]
      · exact hquote
      · exact hline
      · exact fun us h => absurd h hc
      · exact fun d us h => absurd h hc

theorem rawExtent_append {cs : List Char} (h : (rawExtent cs).closed = true) (ds : List Char) :
    rawExtent (cs ++ ds) = rawExtent cs := by
  fun_induction rawExtent cs with
  | case1 => cases h
  | case2 => rfl
  | case3 c cs hc ih =>
    rw [List.cons_append, rawExtent, ih h]
    exact hc

theorem length_rawExtent_of_open {cs : List Char} (h : ¬(rawExtent cs).closed = true) :
    (rawExtent cs).length = cs.length := by
  fun_induction rawExtent cs with
  | case1 => rfl
  | case2 => exact absurd rfl h
  | case3 c cs hc ih => exact congrArg (· + 1) (ih h)

theorem longest_slash_newline {cs : List Char}
    (h : (longest '/' cs).2 = cs.length → ¬OpenComment ('/' :: cs)) (ds : List Char) :
    longest '/' (cs ++ '\n' :: ds) = longest '/' cs := by
  cases cs with
  | nil => rfl
  | cons d cs =>
    by_cases hslash : d = '/'
    · subst hslash
      have hrun := run_newline (p := (· != '\n')) (by decide) ('/' :: cs) ds
      exact congrArg (Shape.comment, ·) hrun
    by_cases hstar : d = '*'
    · subst hstar
      have hclosed : ['*', '/'] <:+: cs := by
        by_contra hopen
        exact h (congrArg (· + 1) (commentLength_of_open hopen)) ⟨⟨cs, rfl⟩, hopen⟩
      exact congrArg (fun n => (Shape.comment, n + 1)) (commentLength_append hclosed _)
    simp [longest, isBlank, isWordStart, hslash, hstar]

/-- Whitespace that stops before the text does is a run that goes no further. -/
theorem longest_blank {c : Char} {cs : List Char} (hc : isBlank c = true)
    (hlen : (longest c cs).2 ≠ cs.length) (ds : List Char) :
    longest c (cs ++ ds) = longest c cs := by
  have hlongest : longest c cs = (.whitespace, run isBlank cs) := by simp [longest, hc]
  rw [hlongest] at hlen
  have hdrop : cs.drop (run isBlank cs) ≠ [] := by
    intro hnil
    have hle : run isBlank cs ≤ cs.length := (List.takeWhile_prefix _).length_le
    exact hlen (Nat.le_antisymm hle (List.drop_eq_nil_iff.1 hnil))
  simp [longest, hc, run_append hdrop]

/-- A run in front of a newline ends there, unless it is whitespace or something that is not
closed. -/
theorem longest_newline {c : Char} {cs : List Char}
    (hend : (longest c cs).2 = cs.length →
      isBlank c = false ∧ (longest c cs).1 ≠ .unterminated ∧ ¬OpenComment (c :: cs))
    (ds : List Char) : longest c (cs ++ '\n' :: ds) = longest c cs := by
  by_cases hblank : isBlank c = true
  · refine longest_blank hblank (fun hlen => ?_) _
    rw [(hend hlen).1] at hblank
    cases hblank
  by_cases hslash : c = '/'
  · subst hslash
    exact longest_slash_newline (fun hlen => (hend hlen).2.2) ds
  by_cases hraw : c = '\x60'
  · subst hraw
    have hclosed : (rawExtent cs).closed = true := by
      by_contra hopen
      exact (hend (length_rawExtent_of_open hopen)).2.1 (if_neg hopen)
    simp [longest, isBlank, isWordStart, rawExtent_append hclosed]
  by_cases hword : isWordStart c
  · have hrun := run_newline (p := isWordPart) (by decide) cs ds
    have htake : (cs ++ '\n' :: ds).takeWhile isWordPart = cs.takeWhile isWordPart := by
      have hle : run isWordPart cs ≤ cs.length := (List.takeWhile_prefix _).length_le
      rw [← take_run, hrun, List.take_append_of_le_length hle, take_run]
    simp [longest, hblank, hword, hrun, htake]
  have hdigits := run_newline (p := Char.isDigit) (by decide) cs ds
  by_cases hdigit : c.isDigit
  · simp [longest, hblank, hword, hdigit, hdigits]
  have hhead : ∀ q : Char → Bool, q '\n' = false →
      (cs ++ '\n' :: ds).head?.any q = cs.head?.any q := by
    intro q hq
    cases cs with
    | nil => exact hq
    | cons d cs => rfl
  simp only [longest, hblank, hword, hdigit, Bool.false_eq_true, if_false]
  split
  · rw [hhead _ (by decide), hdigits]
  · exact absurd rfl hslash
  · rw [quotedExtent_newline]
  · exact absurd rfl hraw
  · cases cs <;> rfl
  all_goals rfl

theorem length_quotedExtent_le (cs : List Char) : (quotedExtent cs).length ≤ cs.length := by
  fun_induction quotedExtent cs with
  | case1 | case3 => exact Nat.zero_le _
  | case2 | case4 => simp
  | case5 | case6 => simpa [Extent.add] using ‹_›

theorem length_rawExtent_le (cs : List Char) : (rawExtent cs).length ≤ cs.length := by
  fun_induction rawExtent cs with
  | case1 => exact Nat.zero_le _
  | case2 => simp
  | case3 => simpa [Extent.add] using ‹_›

theorem commentLength_le (cs : List Char) : commentLength cs ≤ cs.length := by
  fun_induction commentLength cs with
  | case1 => exact Nat.zero_le _
  | case2 => simp
  | case3 => simpa using ‹_›

/-- A run takes no more characters than there are. -/
theorem longest_le (c : Char) (cs : List Char) : (longest c cs).2 ≤ cs.length := by
  have hrun (p : Char → Bool) : run p cs ≤ cs.length := (List.takeWhile_prefix p).length_le
  unfold longest
  split
  · exact hrun _
  split
  · exact hrun _
  split
  · exact hrun _
  split
  · split
    · exact hrun _
    · exact Nat.zero_le _
  · split
    · exact hrun _
    · exact Nat.succ_le_succ (commentLength_le _)
    · exact Nat.zero_le _
  · exact length_quotedExtent_le cs
  · exact length_rawExtent_le cs
  · split
    · next h => cases cs <;> simp at h ⊢
    · exact Nat.zero_le _
  all_goals exact Nat.zero_le _

/-- Whitespace at the front is one run. -/
theorem scan_blank {c : Char} (hc : isBlank c = true) (cs : List Char) :
    scan (c :: cs) = ⟨.whitespace, c :: cs.takeWhile isBlank⟩ :: scan (cs.dropWhile isBlank) := by
  have hlongest : longest c cs = (.whitespace, run isBlank cs) := by simp [longest, hc]
  rw [scan_cons, hlongest, take_run, drop_run]

theorem scan_dropWhile (cs : List Char) : ∃ us, scan cs = us ++ scan (cs.dropWhile isBlank) ∧
    us.length ≤ 1 ∧ ∀ l ∈ us, l.shape.isTrivia = true := by
  cases cs with
  | nil => exact ⟨[], rfl, Nat.zero_le _, by simp⟩
  | cons c cs =>
    cases hc : isBlank c with
    | true => exact ⟨[⟨.whitespace, c :: cs.takeWhile isBlank⟩], by simp [scan_blank hc, hc],
        Nat.le_refl _, by simp [Shape.isTrivia]⟩
    | false => exact ⟨[], by simp [hc], Nat.zero_le _, by simp⟩

/-- A text that goes on after a newline has no fewer runs. -/
theorem length_scan_le (cs ds : List Char) :
    (scan cs).length ≤ (scan (cs ++ '\n' :: ds)).length := by
  fun_induction scan cs with
  | case1 => exact Nat.zero_le _
  | case2 c cs shape n hn ih =>
    rw [List.cons_append, scan_cons, List.length_cons, List.length_cons]
    refine Nat.succ_le_succ ?_
    have hle := longest_le c cs
    rw [hn] at hle
    by_cases hlen : n = cs.length
    · rw [hlen, List.drop_length, scan_nil]
      exact Nat.zero_le _
    · rw [longest_newline (fun h => absurd (by rwa [hn] at h) hlen), hn,
        List.drop_append_of_le_length hle]
      exact ih

/-- A newline between two texts is part of a run of whitespace, which takes in what whitespace there
is on both sides. All else stays as it is. -/
theorem scan_newline {cs : List Char} (hshape : ∀ l ∈ scan cs, l.shape ≠ .unterminated)
    (hcomment : ∀ l ∈ (scan cs).getLast?, ¬OpenComment l.chars) (ds : List Char) :
    ∃ ls us w, scan cs = ls ++ us ∧ (∀ l ∈ us, l.shape.isTrivia = true) ∧
      w.shape = .whitespace ∧ scan (cs ++ '\n' :: ds) = ls ++ w :: scan (ds.dropWhile isBlank) := by
  fun_induction scan cs with
  | case1 =>
    refine ⟨[], [], ⟨.whitespace, '\n' :: ds.takeWhile isBlank⟩, rfl, by simp, rfl, ?_⟩
    exact scan_blank (by decide) ds
  | case2 c cs shape n hn ih =>
    by_cases hall : isBlank c = true ∧ cs.dropWhile isBlank = []
    · -- the text ends in whitespace, which goes on
      obtain ⟨hc, hdrop⟩ := hall
      have hdrop' : (cs ++ '\n' :: ds).dropWhile isBlank = ds.dropWhile isBlank := by
        rw [List.dropWhile_append, hdrop]
        rfl
      have hlongest : longest c cs = (.whitespace, run isBlank cs) := by simp [longest, hc]
      rw [hlongest] at hn
      obtain ⟨rfl, rfl⟩ := Prod.mk.inj hn
      refine ⟨[], _, ⟨.whitespace, c :: (cs ++ '\n' :: ds).takeWhile isBlank⟩, rfl, ?_, rfl, ?_⟩
      · rw [drop_run, hdrop, scan_nil]
        simp [Shape.isTrivia]
      · rw [List.cons_append, scan_blank hc, hdrop', List.nil_append]
    have hlongest : longest c (cs ++ '\n' :: ds) = longest c cs := by
      refine longest_newline (fun hlen => ?_) ds
      have hlen : n = cs.length := by rwa [hn] at hlen
      refine ⟨?_, ?_, ?_⟩
      · by_contra hc
        rw [Bool.not_eq_false] at hc
        have hrun : run isBlank cs = n := by simpa [longest, hc] using congrArg Prod.snd hn
        exact hall ⟨hc, by rw [← drop_run, hrun, hlen, List.drop_length]⟩
      · rw [hn]
        exact hshape _ (.head _)
      · have hlast := hcomment ⟨shape, c :: cs.take n⟩
        rw [hlen, List.drop_length, List.take_length, scan_nil] at hlast
        exact hlast rfl
    have hle := longest_le c cs
    rw [hn] at hlongest hle
    obtain ⟨ls, us, w, hls, hus, hw, hscan⟩ := ih (fun l hl => hshape l (.tail _ hl))
      fun l hl => hcomment l (by rw [List.getLast?_cons, hl]; rfl)
    refine ⟨⟨shape, c :: cs.take n⟩ :: ls, us, w, ?_, hus, hw, ?_⟩
    · rw [hls, List.cons_append]
    · rw [List.cons_append, scan_cons, hlongest, List.drop_append_of_le_length hle,
        List.take_append_of_le_length hle, hscan, List.cons_append]

end Lexeme

/-! ### What stands in front -/

/-- Tokens that have a value after them. -/
def TokenKind.awaitsValue (kind : TokenKind) : Bool :=
  [TokenKind.equals, .plusEquals, .plus].contains kind

namespace Context

open Token TokenStream

/-- What stands before what comes after `ls`. -/
def afterAll (ctx : Context) (ls : List Lexeme) : Context :=
  ls.foldl (fun ctx l => ctx.after l.shape) ctx

/-- The last significant lexeme has a value after it. -/
def awaitsValue (ctx : Context) : Bool := ctx.previous.any fun s => s.assigns || s == .plus

theorem awaitsValue_after (ctx ctx' : Context) {l : Lexeme} (h : l.shape.isTrivia = false)
    (ls : List Lexeme) : (ctx'.after l.shape).awaitsValue = (ctx.kindOf l ls).awaitsValue := by
  obtain ⟨shape, chars⟩ := l
  cases shape with
  | whitespace | comment => cases h
  | word =>
    have hmem := kindOf_word_mem ctx.previous (nextSignificant ls) ctx.nesting
    change _ = (wordKind ctx.previous (nextSignificant ls) ctx.nesting).awaitsValue
    generalize wordKind ctx.previous (nextSignificant ls) ctx.nesting = k at hmem
    simp only [List.mem_cons, List.not_mem_nil, or_false] at hmem
    rcases hmem with rfl | rfl | rfl | rfl <;> rfl
  | quoted => simp only [kindOf]; split <;> rfl
  | _ => rfl

/-- The brackets that are open at the end of a text, by its tokens. -/
theorem nesting_afterAll (index : Nat) (p : Position) (ctx : Context) (ls : List Lexeme) :
    (ctx.afterAll ls).nesting = (kindsOf (place index p ctx ls)).foldl .afterKind ctx.nesting := by
  induction ls generalizing index p ctx with
  | nil => rfl
  | cons l ls ih =>
    have hafter := ih (index + 1) (p.after l.chars) (ctx.after l.shape)
    cases hl : l.shape.isTrivia with
    | true =>
      rw [kindsOf_place_of_trivia _ _ _ _ hl, afterAll, List.foldl_cons, ← afterAll, hafter,
        after_trivia ctx hl]
    | false =>
      rw [kindsOf_place_of_significant _ _ _ _ hl, List.foldl_cons, ← after_eq_afterKind]
      exact hafter

/-- Whether a text waits for a value at its end, by its tokens. -/
theorem awaitsValue_afterAll (index : Nat) (p : Position) (ctx : Context) (ls : List Lexeme) :
    (ctx.afterAll ls).awaitsValue =
      ((kindsOf (place index p ctx ls)).getLast?.map TokenKind.awaitsValue).getD ctx.awaitsValue := by
  induction ls generalizing index p ctx with
  | nil => rfl
  | cons l ls ih =>
    have hafter := ih (index + 1) (p.after l.chars) (ctx.after l.shape)
    cases hl : l.shape.isTrivia with
    | true =>
      rw [kindsOf_place_of_trivia _ _ _ _ hl, afterAll, List.foldl_cons, ← afterAll, hafter,
        after_trivia ctx hl]
    | false =>
      rw [awaitsValue_after ctx ctx hl ls] at hafter
      rw [kindsOf_place_of_significant _ _ _ _ hl, List.getLast?_cons, afterAll, List.foldl_cons,
        ← afterAll, hafter]
      cases (kindsOf (place (index + 1) (p.after l.chars) (ctx.after l.shape) ls)).getLast? <;> rfl

theorem nextSignificant_trivia {ls : List Lexeme} (h : ∀ l ∈ ls, l.shape.isTrivia = true) :
    nextSignificant ls = none := by
  rw [nextSignificant, List.find?_eq_none.2 (by simpa using h), Option.map_none]

theorem afterAll_append (ctx : Context) (us vs : List Lexeme) :
    ctx.afterAll (us ++ vs) = (ctx.afterAll us).afterAll vs := List.foldl_append

theorem afterAll_trivia (ctx : Context) {ls : List Lexeme}
    (h : ∀ l ∈ ls, l.shape.isTrivia = true) : ctx.afterAll ls = ctx := by
  induction ls with
  | nil => rfl
  | cons l ls ih =>
    rw [afterAll, List.foldl_cons, after_trivia ctx (h l (.head _))]
    exact ih fun l' hl' => h l' (.tail _ hl')

/-- Outside brackets and where no value is due, a word is what it is at the start of a text. -/
theorem kindOf_word_empty {ctx : Context} (hnesting : ctx.nesting = [])
    (hawaits : ctx.awaitsValue = false) {l : Lexeme} (hl : l.shape = .word) (ls : List Lexeme) :
    ctx.kindOf l ls = Context.empty.kindOf l ls := by
  have hprevious : (ctx.previous.any fun s => s.assigns || s == .plus) = false := hawaits
  simp only [kindOf, hl, wordKind, hnesting, hprevious]
  rfl

/-- Only words become names of modules and variables. -/
theorem shape_of_kindOf_name {ctx : Context} {l : Lexeme} {ls : List Lexeme}
    (h : ctx.kindOf l ls ∈ [TokenKind.blueprintTypeName, .variableName]) : l.shape = .word := by
  obtain ⟨shape, chars⟩ := l
  cases shape with
  | word => rfl
  | quoted => simp only [kindOf] at h; split at h <;> simp at h
  | _ => simp [kindOf] at h

end Context

/-! ### The tokens of a part -/

namespace TokenStream

open Context Token

theorem place_shift (d : Shift) (index : Nat) (p : Position) (ctx : Context) (ls : List Lexeme) :
    place (index + d.index) (d.position p) ctx ls = (place index p ctx ls).map d.token := by
  induction ls generalizing index p ctx with
  | nil => rfl
  | cons l ls ih =>
    rw [place, place, List.map_cons, d.ofText_position, d.position_after, Nat.add_right_comm, ih]
    rfl

/-- The tokens of a part of a text are the same before anything that tells nothing about words. -/
theorem place_append (index : Nat) (p : Position) (ctx : Context) (us vs : List Lexeme) :
    ∃ ts, place index p ctx (us ++ vs) =
        ts ++ place (index + us.length) (p.after (us.flatMap Lexeme.chars)) (ctx.afterAll us) vs ∧
      (∀ t ∈ ts, ∃ l ∈ us, t.isTrivia = l.shape.isTrivia) ∧
      ∀ vs', Shape.Inert (nextSignificant vs) → Shape.Inert (nextSignificant vs') →
        place index p ctx (us ++ vs') =
          ts ++ place (index + us.length) (p.after (us.flatMap Lexeme.chars)) (ctx.afterAll us) vs' := by
  induction us generalizing index p ctx with
  | nil => exact ⟨[], rfl, by simp, fun _ _ _ => rfl⟩
  | cons u us ih =>
    obtain ⟨ts, hts, htrivia, hinert⟩ := ih (index + 1) (p.after u.chars) (ctx.after u.shape)
    have hindex : index + (u :: us).length = index + 1 + us.length := by
      rw [List.length_cons]
      omega
    rw [hindex, List.flatMap_cons, Position.after_append]
    refine ⟨⟨index, ctx.kindOf u (us ++ vs), Span.ofText p u.chars, u.chars⟩ :: ts, ?_, ?_, ?_⟩
    · rw [List.cons_append, place, hts]
      rfl
    · intro t ht
      rcases List.mem_cons.1 ht with rfl | ht
      · exact ⟨u, .head _, isTrivia_kindOf _ _ _⟩
      · obtain ⟨l, hl, h⟩ := htrivia t ht
        exact ⟨l, .tail _ hl, h⟩
    · intro vs' hvs hvs'
      rw [List.cons_append, place, hinert vs' hvs hvs', kindOf_append_congr hvs hvs']
      rfl

/-- A word outside brackets, and what comes after it, where the word is what it is at the start of a
text. -/
theorem place_word {ctx : Context} (hnesting : ctx.nesting = []) {l : Lexeme}
    (hl : l.shape = .word) {ls : List Lexeme} (h : ctx.kindOf l ls = Context.empty.kindOf l ls)
    (index : Nat) (p : Position) :
    place index p ctx (l :: ls) = place index p .empty (l :: ls) := by
  have hafter : ctx.after l.shape = Context.empty.after l.shape := by
    simp only [after, hl, hnesting, Nesting.after]
    rfl
  rw [place, place, h, hafter]

/-- A significant token that comes first, behind trivia, and what comes after it. -/
theorem exists_first {index : Nat} {p : Position} {ctx : Context} {ls : List Lexeme}
    {k : TokenKind} {ks : List TokenKind} (h : kindsOf (place index p ctx ls) = k :: ks) :
    ∃ us l vs, ∃ ctx' : Context, ls = us ++ l :: vs ∧ (∀ l' ∈ us, l'.shape.isTrivia = true) ∧
      l.shape.isTrivia = false ∧ ctx'.kindOf l vs = k ∧
      ∃ index' p', kindsOf (place index' p' (ctx'.after l.shape) vs) = ks := by
  induction ls generalizing index p ctx with
  | nil => cases h
  | cons l ls ih =>
    cases hl : l.shape.isTrivia with
    | true =>
      rw [kindsOf_place_of_trivia _ _ _ _ hl] at h
      obtain ⟨us, l', vs, ctx', rfl, hus, hl'⟩ := ih h
      refine ⟨l :: us, l', vs, ctx', rfl, ?_, hl'⟩
      intro l'' hl''
      rcases List.mem_cons.1 hl'' with rfl | hl''
      · exact hl
      · exact hus _ hl''
    | false =>
      rw [kindsOf_place_of_significant _ _ _ _ hl] at h
      obtain ⟨hk, hks⟩ := List.cons.inj h
      exact ⟨[], l, ls, ctx, rfl, by simp, hl, hk, _, _, hks⟩

/-- A name that comes first, behind trivia. -/
theorem exists_name {index : Nat} {p : Position} {ctx : Context} {ls : List Lexeme}
    (h : ∃ k ∈ (kindsOf (place index p ctx ls)).head?,
      k ∈ [TokenKind.blueprintTypeName, .variableName]) :
    ∃ us l vs, ls = us ++ l :: vs ∧ (∀ l' ∈ us, l'.shape.isTrivia = true) ∧ l.shape = .word := by
  obtain ⟨k, hk, hname⟩ := h
  obtain ⟨ks, hks⟩ := List.head?_eq_some_iff.1 hk
  obtain ⟨us, l, vs, ctx', hls, hus, -, rfl, -⟩ := exists_first hks
  exact ⟨us, l, vs, hls, hus, shape_of_kindOf_name hname⟩

theorem map_chars_place (index : Nat) (p : Position) (ctx : Context) (ls : List Lexeme) :
    (place index p ctx ls).map Token.chars = ls.map Lexeme.chars := by
  induction ls generalizing index p ctx with
  | nil => rfl
  | cons l ls ih => rw [place, List.map_cons, List.map_cons, ih]

/-- Every lexeme becomes a token. -/
theorem exists_mem_place {index : Nat} {p : Position} {ctx : Context} {l : Lexeme}
    {ls : List Lexeme} (h : l ∈ ls) :
    ∃ t ∈ place index p ctx ls, ∃ ctx' : Context, ∃ rest, t.kind = ctx'.kindOf l rest := by
  induction ls generalizing index p ctx with
  | nil => cases h
  | cons l' ls ih =>
    rcases List.mem_cons.1 h with rfl | h
    · exact ⟨_, .head _, ctx, ls, rfl⟩
    · obtain ⟨t, ht, hkind⟩ := ih h
      exact ⟨t, .tail _ ht, hkind⟩

end TokenStream

/-! ### Two texts -/

namespace Lexeme

/-- Behind blanks at the front of a text the scan is the same, and blanks are one run at most. -/
theorem scan_dropWhile_cons {bs : List Char} {us vs : List Lexeme} {l : Lexeme}
    (hbs : scan bs = us ++ l :: vs) (hus : ∀ l' ∈ us, l'.shape.isTrivia = true)
    (hl : l.shape.isTrivia = false) :
    ∃ us', scan (bs.dropWhile isBlank) = us' ++ l :: vs ∧
      (∀ l' ∈ us', l'.shape.isTrivia = true) ∧ us.length ≤ us'.length + 1 := by
  obtain ⟨blanks, hblanks, hlen, htrivia⟩ := scan_dropWhile bs
  rw [hblanks] at hbs
  rcases List.append_eq_append_iff.1 hbs with ⟨mid, rfl, h⟩ | ⟨mid, hmid, h⟩
  · refine ⟨mid, h, fun l' hl' => hus l' (List.mem_append_right _ hl'), ?_⟩
    rw [List.length_append]
    omega
  · cases mid with
    | nil =>
      rw [List.append_nil] at hmid
      exact ⟨[], h.symm, by simp, hmid ▸ hlen⟩
    | cons l' mid =>
      obtain ⟨rfl, -⟩ := List.cons.inj h
      have hl' := htrivia l (by rw [hmid]; simp)
      rw [hl] at hl'
      cases hl'

/-- The lexemes of two texts with a newline between them: those of the first, but for trivia at its
end, some trivia, and those of the second from the first word on. -/
theorem scan_joined {as bs : List Char} (hshape : ∀ l ∈ scan as, l.shape ≠ .unterminated)
    (hcomment : ∀ l ∈ (scan as).getLast?, ¬OpenComment l.chars) {us vs : List Lexeme} {l : Lexeme}
    (hbs : scan bs = us ++ l :: vs) (hus : ∀ l' ∈ us, l'.shape.isTrivia = true)
    (hl : l.shape.isTrivia = false) :
    ∃ front gap gap', scan as = front ++ gap ∧
      scan (as ++ '\n' :: bs) = front ++ (gap' ++ l :: vs) ∧
      (∀ l' ∈ gap, l'.shape.isTrivia = true) ∧ (∀ l' ∈ gap', l'.shape.isTrivia = true) ∧
      us.length ≤ gap'.length := by
  obtain ⟨front, gap, w, hfront, hgap, hw, hscan⟩ := scan_newline hshape hcomment bs
  obtain ⟨mid, hmid, htrivia, hlen⟩ := scan_dropWhile_cons hbs hus hl
  refine ⟨front, gap, w :: mid, hfront, ?_, hgap, ?_, hlen⟩
  · rw [hscan, hmid, List.cons_append]
  · intro l' hl'
    rcases List.mem_cons.1 hl' with rfl | hl'
    · rw [hw]
      rfl
    · exact htrivia l' hl'

end Lexeme

namespace Position

/-- A text in front, on lines of its own, shifts a place. -/
theorem after_newline (d : Shift) (as bs : List Char) (hoffset : d.offset = Text.byteLength as + 1)
    (hline : d.line = as.count '\n' + 1) :
    first.after (as ++ '\n' :: bs) = d.position (first.after bs) := by
  have hstart : first.after (as ++ ['\n']) = d.position first := by
    rw [after_append, after_first]
    have hsize : '\n'.utf8Size = 1 := by decide
    simp only [after_cons, after_nil, next, if_true, Shift.position, first, hoffset, hline,
      Text.lineAfter, hsize, Nat.zero_add, Nat.add_assoc]
  rw [← d.position_after, ← hstart, ← after_append, List.append_assoc, List.singleton_append]

end Position

namespace TokenStream

open Context Token

theorem isTrivia_of_lexemes {ls : List Lexeme} {ts : List Token}
    (hls : ∀ l ∈ ls, l.shape.isTrivia = true)
    (hts : ∀ t ∈ ts, ∃ l ∈ ls, t.isTrivia = l.shape.isTrivia) : ∀ t ∈ ts, t.isTrivia = true := by
  intro t ht
  obtain ⟨l, hl, h⟩ := hts t ht
  rw [h, hls l hl]

/-- The tokens of lexemes `ls` in front of trivia at the end of a text, and those of `ls`, of lexemes
`mid` that leave no bracket open and of a word that is what it is at the start of a text, with trivia
between them. The first are the same, and from the word on it is as if no other were there. -/
theorem place_between {ls gap us vs before mid behind : List Lexeme} {l : Lexeme} (d : Shift)
    (hgap : ∀ l' ∈ gap, l'.shape.isTrivia = true) (hus : ∀ l' ∈ us, l'.shape.isTrivia = true)
    (hbefore : ∀ l' ∈ before, l'.shape.isTrivia = true)
    (hbehind : ∀ l' ∈ behind, l'.shape.isTrivia = true) (hl : l.shape = .word)
    (hinert : Shape.Inert (nextSignificant mid))
    (hnesting : (Context.empty.afterAll (ls ++ before ++ mid)).nesting = [])
    (hkind : (Context.empty.afterAll (ls ++ before ++ mid)).kindOf l vs =
      Context.empty.kindOf l vs)
    (hindex : us.length + d.index = (ls ++ before ++ mid ++ behind).length)
    (hposition : Position.first.after ((ls ++ before ++ mid ++ behind).flatMap Lexeme.chars) =
      d.position (Position.first.after (us.flatMap Lexeme.chars))) :
    ∃ front ts bs es lead rest,
      place 0 .first .empty (ls ++ gap) = front ++ ts ∧
      place 0 .first .empty (us ++ l :: vs) = lead ++ rest ∧
      place 0 .first .empty (ls ++ (before ++ (mid ++ (behind ++ l :: vs)))) =
        front ++ (bs ++ (place (ls.length + before.length)
          (Position.first.after ((ls ++ before).flatMap Lexeme.chars))
            (Context.empty.afterAll (ls ++ before)) mid ++ (es ++ rest.map d.token))) ∧
      (∀ t ∈ ts, t.isTrivia = true) ∧ (∀ t ∈ bs, t.isTrivia = true) ∧
      (∀ t ∈ es, t.isTrivia = true) ∧ (∀ t ∈ lead, t.isTrivia = true) ∧
      ∃ t ts, rest = t :: ts ∧ t.isTrivia = false := by
  have hword : l.shape.isTrivia = false := by rw [hl]; rfl
  have hinert₁ : Shape.Inert (nextSignificant gap) := by
    rw [nextSignificant_trivia hgap]
    exact ⟨by simp, rfl⟩
  have hinert₂ : Shape.Inert (nextSignificant (behind ++ l :: vs)) := by
    rw [nextSignificant_append, nextSignificant_trivia hbehind, nextSignificant_cons hword, hl]
    exact ⟨by simp, rfl⟩
  have hinert₃ : Shape.Inert (nextSignificant (before ++ (mid ++ (behind ++ l :: vs)))) := by
    rw [nextSignificant_append, nextSignificant_trivia hbefore, Option.none_or,
      nextSignificant_append]
    cases hmid : nextSignificant mid with
    | none => exact hinert₂
    | some shape =>
      rw [hmid] at hinert
      exact hinert
  obtain ⟨front, hfront, -, hcongr⟩ :=
    place_append 0 .first .empty ls (before ++ (mid ++ (behind ++ l :: vs)))
  have hend := hcongr gap hinert₃ hinert₁
  obtain ⟨ts, hts, htrivia, -⟩ := place_append (0 + ls.length)
    (Position.first.after (ls.flatMap Lexeme.chars)) (Context.empty.afterAll ls) gap []
  obtain ⟨bs, hbs, htrivia', -⟩ := place_append (0 + ls.length)
    (Position.first.after (ls.flatMap Lexeme.chars)) (Context.empty.afterAll ls) before
    (mid ++ (behind ++ l :: vs))
  rw [← afterAll_append, ← Position.after_append, ← List.flatMap_append] at hbs
  obtain ⟨ms, hms, -, hcongr'⟩ := place_append (0 + ls.length + before.length)
    (Position.first.after ((ls ++ before).flatMap Lexeme.chars))
    (Context.empty.afterAll (ls ++ before)) mid (behind ++ l :: vs)
  have hmid := hcongr' [] hinert₂ ⟨by simp [nextSignificant], rfl⟩
  rw [← afterAll_append, ← Position.after_append, ← List.flatMap_append] at hms
  obtain ⟨es, hes, htrivia'', -⟩ := place_append (0 + ls.length + before.length + mid.length)
    (Position.first.after ((ls ++ before ++ mid).flatMap Lexeme.chars))
    (Context.empty.afterAll (ls ++ before ++ mid)) behind (l :: vs)
  rw [afterAll_trivia _ hbehind, place_word hnesting hl hkind, ← Position.after_append,
    ← List.flatMap_append, hposition] at hes
  obtain ⟨lead, hlead, hlead', -⟩ := place_append 0 .first .empty us (l :: vs)
  rw [afterAll_trivia _ hus] at hlead
  rw [List.append_nil, place, List.append_nil] at hts hmid
  have hrest : 0 + ls.length + before.length + mid.length + behind.length =
      0 + us.length + d.index := by
    simp only [List.length_append] at hindex
    omega
  rw [hrest, place_shift] at hes
  refine ⟨front, ts, bs, es, lead, _, ?_, hlead, ?_, isTrivia_of_lexemes hgap htrivia,
    isTrivia_of_lexemes hbefore htrivia', isTrivia_of_lexemes hbehind htrivia'',
    isTrivia_of_lexemes hus hlead', _, _, rfl, ?_⟩
  · rw [hend, hts]
  · rw [hfront, hbs, hms, hes, ← hmid, Nat.zero_add]
  · exact (isTrivia_kindOf .empty l vs).trans hword

/-- Where a text is in front of the same runs, on lines of its own, they stand at shifted places. -/
theorem after_flatMap_scan {d : Shift} {as bs : List Char} {us vs ls : List Lexeme}
    (hoffset : d.offset = Text.byteLength as + 1) (hline : d.line = as.count '\n' + 1)
    (has : Lexeme.scan (as ++ '\n' :: bs) = us ++ ls) (hbs : Lexeme.scan bs = vs ++ ls) :
    Position.first.after (us.flatMap Lexeme.chars) =
      d.position (Position.first.after (vs.flatMap Lexeme.chars)) := by
  have hjoined := Lexeme.flatMap_scan (as ++ '\n' :: bs)
  have hsecond := Lexeme.flatMap_scan bs
  rw [has, List.flatMap_append] at hjoined
  rw [hbs, List.flatMap_append] at hsecond
  rw [← Position.after_newline d as _ hoffset hline]
  rw [← hsecond, ← List.cons_append, ← List.append_assoc] at hjoined
  exact congrArg Position.first.after (List.append_cancel_right hjoined)

/-- Where a text is in front, on lines of its own, the end is shifted. -/
theorem eof_newline {d : Shift} {as bs : List Char} (hoffset : d.offset = Text.byteLength as + 1)
    (hline : d.line = as.count '\n' + 1)
    (hlength : (Lexeme.scan (as ++ '\n' :: bs)).length = (Lexeme.scan bs).length + d.index) :
    (ofChars (as ++ '\n' :: bs)).eof = d.token (ofChars bs).eof := by
  simp only [ofChars, length_place, hlength, Position.after_newline d as bs hoffset hline,
    d.ofText_position]
  rfl

end TokenStream

theorem length_tokenize_le (a b : String) :
    (tokenize a).length ≤ (tokenize (a ++ "\n" ++ b)).length := by
  have hjoined : (a ++ "\n" ++ b).toList = a.toList ++ '\n' :: b.toList := by simp
  simp only [tokenize, TokenStream.toList, TokenStream.ofChars, List.length_append,
    TokenStream.length_place, hjoined]
  exact Nat.add_le_add_right (Lexeme.length_scan_le a.toList b.toList) 1

namespace TokenStream

open Token

/-- Nothing in a text goes on after its end: no comment or literal is open, no bracket, and no value
is due. -/
structure Closed (ts : TokenStream) : Prop where
  kind_ne_error : ∀ t ∈ ts.body, t.kind ≠ .error
  not_openComment : ∀ t ∈ ts.body.getLast?, ¬Lexeme.OpenComment t.chars
  balanced : Balanced (kindsOf ts.body)
  awaitsValue_eq : ∀ k ∈ (kindsOf ts.body).getLast?, k.awaitsValue = false

namespace Closed

open Context Lexeme

variable {cs : List Char} (H : (ofChars cs).Closed)
include H

theorem shape_ne : ∀ l ∈ scan cs, l.shape ≠ .unterminated := by
  intro l hl hshape
  obtain ⟨t, ht, ctx, ls, hkind⟩ := exists_mem_place hl
  refine H.kind_ne_error t ht ?_
  simp only [hkind, kindOf, hshape]

theorem chars_not_openComment : ∀ l ∈ (scan cs).getLast?, ¬OpenComment l.chars := by
  intro l hl
  have hchars := congrArg List.getLast? (map_chars_place 0 .first .empty (scan cs))
  rw [List.getLast?_map, List.getLast?_map, hl] at hchars
  obtain ⟨t, ht, hchars⟩ := Option.map_eq_some_iff.1 hchars
  exact hchars ▸ H.not_openComment t ht

theorem nesting_eq : (Context.empty.afterAll (scan cs)).nesting = [] := by
  rw [nesting_afterAll 0 .first]
  exact H.balanced.foldl_afterKind []

theorem awaitsValue_afterAll_eq : (Context.empty.afterAll (scan cs)).awaitsValue = false := by
  rw [awaitsValue_afterAll 0 .first]
  cases hk : (kindsOf (place 0 .first .empty (scan cs))).getLast? with
  | none => rfl
  | some k => exact H.awaitsValue_eq k hk

end Closed

/-- The tokens `ts` are those of `as`, and then those of `bs`, shifted, but for trivia where they
meet. -/
structure Joint (d : Shift) (as bs ts : TokenStream) where
  front : List Token
  gap : List Token
  gap' : List Token
  lead : List Token
  rest : List Token
  body_first : as.body = front ++ gap
  body_second : bs.body = lead ++ rest
  body_eq : ts.body = front ++ (gap' ++ rest.map d.token)
  eof_eq : ts.eof = d.token bs.eof
  isTrivia_gap : ∀ t ∈ gap, t.isTrivia = true
  isTrivia_gap' : ∀ t ∈ gap', t.isTrivia = true
  isTrivia_lead : ∀ t ∈ lead, t.isTrivia = true
  isTrivia_head : ∀ t ∈ (rest ++ [bs.eof]).head?, t.isTrivia = false

namespace Joint

variable {d : Shift} {as bs ts : TokenStream} (J : Joint d as bs ts)

theorem significant_front : significant J.front = significant as.body := by
  rw [J.body_first, significant_append, significant_eq_nil J.isTrivia_gap, List.append_nil]

theorem significant_body :
    significant ts.body = significant as.body ++ significant (J.rest.map d.token) := by
  rw [J.body_eq, significant_append, significant_append, J.significant_front,
    significant_eq_nil J.isTrivia_gap', List.nil_append]

theorem kindsOf_rest : kindsOf J.rest = kindsOf bs.body := by
  rw [kindsOf_eq_map_significant, kindsOf_eq_map_significant, J.body_second, significant_append,
    significant_eq_nil J.isTrivia_lead, List.nil_append]

end Joint

end TokenStream

open TokenStream Context Lexeme Token in
/-- The tokens of a closed text and of one that starts with a name, with a newline between them, are
those of the one and then those of the other. -/
theorem tokenize_joined {a b : String} (H : (ofChars a.toList).Closed)
    (hname : ∃ k ∈ (kindsOf (ofChars b.toList).body).head?,
      k ∈ [TokenKind.blueprintTypeName, .variableName]) :
    ∃ d : Shift, d.offset = a.utf8ByteSize + 1 ∧ d.line = a.toList.count '\n' + 1 ∧
      Nonempty
        (Joint d (ofChars a.toList) (ofChars b.toList) (ofChars (a ++ "\n" ++ b).toList)) := by
  have hjoined : (a ++ "\n" ++ b).toList = a.toList ++ '\n' :: b.toList := by simp
  obtain ⟨us, l, vs, hscan, hus, hl⟩ := exists_name hname
  obtain ⟨ls, gap, gap', hls, hjoint, hgap, hgap', hlen⟩ :=
    scan_joined H.shape_ne H.chars_not_openComment hscan hus (by rw [hl]; rfl)
  have hctx : Context.empty.afterAll ls = Context.empty.afterAll (scan a.toList) := by
    rw [hls, afterAll_append, afterAll_trivia _ hgap]
  have hnesting := hctx ▸ H.nesting_eq
  have hawaits := hctx ▸ H.awaitsValue_afterAll_eq
  obtain ⟨d, hindex, hoffset, hline⟩ : ∃ d : Shift, d.index = ls.length + gap'.length - us.length ∧
      d.offset = Text.byteLength a.toList + 1 ∧ d.line = a.toList.count '\n' + 1 :=
    ⟨⟨_, _, _, 0⟩, rfl, rfl, rfl⟩
  have hposition := after_flatMap_scan hoffset hline
    (hjoint.trans (List.append_assoc _ _ _).symm) hscan
  -- there is nothing but `gap'` between the two
  obtain ⟨front, ts, bs, es, lead, rest, hts, hlead, hall, hgap, hbefore, hbehind, hlead', t, us,
    hrest, ht⟩ := @place_between ls gap us vs [] [] gap' l d hgap hus (by simp) hgap' hl
      ⟨by simp [nextSignificant], rfl⟩ (by simpa using hnesting)
      (by simpa using kindOf_word_empty hnesting hawaits hl vs)
      (by simp only [List.append_nil, List.length_append]; omega) (by simpa using hposition)
  rw [← hls] at hts
  rw [← hscan] at hlead
  rw [List.nil_append, List.nil_append, ← hjoint, ← hjoined, place, List.nil_append,
    ← List.append_assoc bs] at hall
  have heof : (ofChars (a ++ "\n" ++ b).toList).eof = d.token (ofChars b.toList).eof := by
    rw [hjoined]
    refine eof_newline hoffset hline ?_
    rw [hjoint, hscan, hindex]
    simp only [List.length_append, List.length_cons]
    omega
  rw [Text.byteLength_toList] at hoffset
  refine ⟨d, hoffset, hline, ⟨⟨front, ts, bs ++ es, lead, rest, hts, hlead, hall, heof, hgap, ?_,
    hlead', ?_⟩⟩⟩
  · exact fun t ht => (List.mem_append.1 ht).elim (hbefore t) (hbehind t)
  · rw [hrest]
    rintro _ ⟨⟩
    exact ht

end Blueprint
