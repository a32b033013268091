import Blueprint.Proofs.Token.Words
import Blueprint.Proofs.Tree.Balanced

/-!
# Words spliced into a text

What the words of a text are when others are put between them. A word is told by what stands on both
sides of it and by the open brackets. Where commas, braces and names of entries meet, that is the
same before and after balanced words are put in between, so the words on both sides stay what they
are (`words_spliced`).
-/

namespace Blueprint

open Lexeme

/-- The open brackets after a token, by its kind. -/
def Nesting.afterKind (n : Nesting) : TokenKind → Nesting
  | .objectStart => .brace :: n
  | .arrayStart => .square :: n
  | .objectEnd => n.close .brace
  | .arrayEnd => n.close .square
  | _ => n

/-- Balanced tokens leave the open brackets as they are. -/
theorem Balanced.foldl_afterKind {ks : List TokenKind} (H : Balanced ks) (n : Nesting) :
    ks.foldl Nesting.afterKind n = n := by
  induction H generalizing n with
  | nil => rfl
  | @cons k ks hk _ ih =>
    have hn : n.afterKind k = n := by
      cases k with
      | objectStart | objectEnd | arrayStart | arrayEnd => exact absurd (by decide) hk
      | _ => rfl
    rw [List.foldl_cons, hn, ih]
  | @group opening closing ks ks' h _ _ ih ih' =>
    have hn : (n.afterKind opening).afterKind closing = n := by
      cases opening <;> cases h <;> simp [Nesting.afterKind, Nesting.close]
    rw [List.foldl_cons, List.foldl_append, ih, List.foldl_cons, hn, ih']

namespace Word

/-- The lexeme that a word is. -/
def lexeme (w : Word) : Lexeme := ⟨shapeOf w.chars, w.chars⟩

def comma : Word := ⟨.separator, [',']⟩

def openSquare : Word := ⟨.arrayStart, ['[']⟩

def closeSquare : Word := ⟨.arrayEnd, [']']⟩

theorem map_lexeme_eq (ws : List Word) :
    ws.map lexeme = (ws.map chars).map fun cs => (⟨shapeOf cs, cs⟩ : Lexeme) := by
  rw [List.map_map]
  rfl

theorem map_lexeme_congr {ws vs : List Word} (h : ws.map chars = vs.map chars) :
    ws.map lexeme = vs.map lexeme := by
  rw [map_lexeme_eq, h, ← map_lexeme_eq]

end Word

/-- At the end of a text or in front of a lexeme that tells nothing about a word before it. -/
def Shape.Inert (next : Option Shape) : Prop :=
  next ≠ some .openBrace ∧ next.any Shape.assigns = false

/-- Kinds of tokens that can stand after an entry or in the place of one: a comma, a closing brace,
or an entry. -/
inductive AtEntry : List TokenKind → Prop
  | separator {ks : List TokenKind} : AtEntry (.separator :: ks)
  | closing {ks : List TokenKind} : AtEntry (.objectEnd :: ks)
  | entry {ks : List TokenKind} : AtEntry (.fieldName :: .equals :: ks)

theorem AtEntry.append {ks : List TokenKind} (H : AtEntry ks) (ks' : List TokenKind) :
    AtEntry (ks ++ ks') := by
  cases H with
  | separator => exact .separator
  | closing => exact .closing
  | entry => exact .entry

/-- The end of the file is no part of what decides. -/
theorem AtEntry.of_append_eof {ks : List TokenKind} (H : AtEntry (ks ++ [.eof])) : AtEntry ks := by
  match ks, H with
  | [_], .separator => exact .separator
  | [_], .closing => exact .closing
  | _ :: _ :: _, .separator => exact .separator
  | _ :: _ :: _, .closing => exact .closing
  | _ :: _ :: _, .entry => exact .entry

namespace Context

variable {ctx ctx' : Context} {l : Lexeme} {ls ls' us vs vs' : List Lexeme}

theorem nextSignificant_cons (h : l.shape.isTrivia = false) :
    nextSignificant (l :: ls) = some l.shape := by
  simp [nextSignificant, h]

theorem nextSignificant_append :
    nextSignificant (us ++ vs) = (nextSignificant us).or (nextSignificant vs) := by
  rw [nextSignificant, List.find?_append, Option.map_or]
  rfl

/-- A word is the same in front of lexemes that tell nothing about it. -/
theorem kindOf_congr_inert (h : Shape.Inert (nextSignificant ls))
    (h' : Shape.Inert (nextSignificant ls')) : ctx.kindOf l ls = ctx.kindOf l ls' := by
  have hkind : ∀ {next}, Shape.Inert next → wordKind ctx.previous next ctx.nesting =
      wordKind ctx.previous none ctx.nesting := by
    intro next hnext
    simp only [wordKind, hnext.1, hnext.2, if_false, Option.any_none, Bool.false_eq_true,
      reduceCtorEq]
  simp only [kindOf, hkind h, hkind h']

/-- What stands after a lexeme in the same text, behind others. -/
theorem kindOf_append_congr (h : Shape.Inert (nextSignificant vs))
    (h' : Shape.Inert (nextSignificant vs')) :
    ctx.kindOf l (us ++ vs) = ctx.kindOf l (us ++ vs') := by
  cases hu : nextSignificant us with
  | none =>
    refine kindOf_congr_inert ?_ ?_
    · rwa [nextSignificant_append, hu, Option.none_or]
    · rwa [nextSignificant_append, hu, Option.none_or]
  | some shape => simp only [kindOf, nextSignificant_append, hu, Option.some_or]

/-! ### What the kinds of tokens say about lexemes -/

theorem kindOf_word_mem (previous next : Option Shape) (nesting : Nesting) :
    wordKind previous next nesting ∈
      [TokenKind.blueprintTypeName, .variableName, .fieldName, .variableValueRef] := by
  unfold wordKind
  repeat' split
  all_goals decide

theorem after_eq_afterKind (n : Nesting) :
    Nesting.after n l.shape = n.afterKind (ctx.kindOf l ls) := by
  obtain ⟨shape, chars⟩ := l
  cases shape with
  | word =>
    have h := kindOf_word_mem ctx.previous (nextSignificant ls) ctx.nesting
    change n = n.afterKind (wordKind ctx.previous (nextSignificant ls) ctx.nesting)
    generalize wordKind ctx.previous (nextSignificant ls) ctx.nesting = k at h
    cases k with
    | objectStart | objectEnd | arrayStart | arrayEnd => exact absurd h (by decide)
    | _ => rfl
  | quoted => simp only [kindOf]; split <;> rfl
  | _ => rfl

theorem isTrivia_of_kindOf {k : TokenKind} (h : ctx.kindOf l ls = k) (hk : k.isTrivia = false) :
    l.shape.isTrivia = false := by
  rw [← isTrivia_kindOf ctx l ls, h, hk]

/-- Only braces and what assigns tell something about a word before them. -/
theorem inert_of_kindOf
    (h : ctx.kindOf l ls ∉ [TokenKind.objectStart, .equals, .plusEquals, .whitespace, .comment]) :
    Shape.Inert (nextSignificant (l :: ls)) := by
  obtain ⟨shape, chars⟩ := l
  cases shape with
  | openBrace | equals | colon | plusEquals | whitespace | comment =>
    simp only [kindOf, List.mem_cons, true_or, or_true, not_true_eq_false] at h
  | _ =>
    refine ⟨fun hs => ?_, rfl⟩
    rcases hs with ⟨⟩

theorem inert_of_classify {w : Word} {ws : List Word} (h : ctx.classify ls = w :: ws)
    (hk : w.kind ∉ [TokenKind.objectStart, .equals, .plusEquals, .whitespace, .comment]) :
    Shape.Inert (nextSignificant ls) := by
  cases ls with
  | nil => cases h
  | cons l ls =>
    obtain ⟨rfl, -⟩ := List.cons.inj h
    exact inert_of_kindOf hk

theorem inert_of_atEntry (h : AtEntry ((ctx.classify ls).map Word.kind)) :
    Shape.Inert (nextSignificant ls) := by
  cases hws : ctx.classify ls with
  | nil =>
    rw [hws] at h
    cases h
  | cons w ws =>
    refine inert_of_classify hws ?_
    rw [hws, List.map_cons] at h
    generalize w.kind = k, ws.map Word.kind = ks at h ⊢
    cases h with
    | separator | closing | entry => decide

theorem assigns_of_kindOf (h : ctx.kindOf l ls = .equals) :
    (nextSignificant (l :: ls)).any Shape.assigns = true := by
  obtain ⟨shape, chars⟩ := l
  cases shape with
  | equals | colon => rfl
  | word =>
    have hmem := kindOf_word_mem ctx.previous (nextSignificant ls) ctx.nesting
    rw [show wordKind ctx.previous (nextSignificant ls) ctx.nesting = .equals from h] at hmem
    exact absurd hmem (by decide)
  | quoted => simp only [kindOf] at h; split at h <;> cases h
  | _ => cases h

/-! ### Parts of a text -/

/-- The words of the first part, and those of the second one after it. -/
theorem classify_append (ctx : Context) (us vs : List Lexeme) :
    ∃ (ws : List Word) (ctx' : Context),
      ctx.classify (us ++ vs) = ws ++ ctx'.classify vs ∧ ws.length = us.length ∧
      ctx'.nesting = (ws.map Word.kind).foldl Nesting.afterKind ctx.nesting ∧
      ∀ vs', Shape.Inert (nextSignificant vs) → Shape.Inert (nextSignificant vs') →
        ctx.classify (us ++ vs') = ws ++ ctx'.classify vs' := by
  induction us generalizing ctx with
  | nil => exact ⟨[], ctx, rfl, rfl, rfl, fun _ _ _ => rfl⟩
  | cons u us ih =>
    obtain ⟨ws, ctx', h, hlen, hnesting, hinert⟩ := ih (ctx.after u.shape)
    refine ⟨⟨ctx.kindOf u (us ++ vs), u.chars⟩ :: ws, ctx', ?_, congrArg (· + 1) hlen, ?_, ?_⟩
    · rw [List.cons_append, classify, h, List.cons_append]
    · rw [hnesting, List.map_cons, List.foldl_cons, ← after_eq_afterKind]
      rfl
    · intro vs' hvs hvs'
      rw [List.cons_append, classify, hinert vs' hvs hvs', kindOf_append_congr hvs hvs',
        List.cons_append]

/-- What stands before a word does not matter when it is given a value. -/
theorem kindOf_congr_previous (hnesting : ctx.nesting = ctx'.nesting)
    (h : l.shape = .word → (nextSignificant ls).any Shape.assigns = true) :
    ctx.kindOf l ls = ctx'.kindOf l ls := by
  obtain ⟨shape, chars⟩ := l
  cases shape with
  | word => simp only [kindOf, wordKind, h rfl, hnesting, if_true]
  | quoted => simp only [kindOf, hnesting]
  | _ => rfl

/-- Where an entry can stand the words do not depend on the one before them. -/
theorem classify_atEntry (hnesting : ctx.nesting = ctx'.nesting)
    (h : AtEntry ((ctx.classify ls).map Word.kind)) : ctx'.classify ls = ctx.classify ls := by
  cases ls with
  | nil => cases h
  | cons l ls =>
    generalize hks : (ctx.classify (l :: ls)).map Word.kind = ks at h
    rw [classify, List.map_cons] at hks
    -- a word would be told by the one before it, but is given a value here
    have hl : l.shape.isTrivia = false ∧
        (l.shape = .word → (nextSignificant ls).any Shape.assigns = true) := by
      cases h with
      | separator | closing =>
        obtain ⟨hk, -⟩ := List.cons.inj hks
        refine ⟨isTrivia_of_kindOf hk rfl, fun hword => ?_⟩
        have hmem := kindOf_word_mem ctx.previous (nextSignificant ls) ctx.nesting
        simp only [kindOf, hword] at hk
        rw [hk] at hmem
        exact absurd hmem (by decide)
      | entry =>
        obtain ⟨hk, hrest⟩ := List.cons.inj hks
        refine ⟨isTrivia_of_kindOf hk rfl, fun _ => ?_⟩
        cases ls with
        | nil => cases hrest
        | cons l' ls => exact assigns_of_kindOf (List.cons.inj hrest).1
    have hafter : ctx'.after l.shape = ctx.after l.shape := by
      simp only [after, hl.1, hnesting, Bool.false_eq_true, if_false]
    rw [classify, classify, kindOf_congr_previous hnesting hl.2, hafter]

/-- A comma is one wherever it stands. -/
theorem classify_comma {cs : List Word} (hcs : cs = [] ∨ cs = [Word.comma]) (ctx : Context)
    (ls : List Lexeme) : ∃ ctx' : Context, ctx'.nesting = ctx.nesting ∧
      ctx.classify (cs.map Word.lexeme ++ ls) = cs ++ ctx'.classify ls := by
  rcases hcs with rfl | rfl
  · exact ⟨ctx, rfl, rfl⟩
  · exact ⟨ctx.after .comma, rfl, rfl⟩

end Context

open Context

/-- The words of a text are what its lexemes are, and the end of the text. -/
theorem exists_words_eq (source : String) : ∃ ws : List Word,
    Token.words (tokenize source) = ws ++ [⟨.eof, []⟩] ∧
      ws = Context.empty.classify (ws.map Word.lexeme) := by
  refine ⟨_, TokenStream.words_tokenize source, ?_⟩
  have hls := Lexeme.significant_scan_eq_map source.toList
  generalize Lexeme.significant (Lexeme.scan source.toList) = ls at hls ⊢
  have hmap : (Context.empty.classify ls).map Word.lexeme = ls := by
    rw [Word.map_lexeme_eq, TokenStream.chars_classify, ← hls]
  rw [hmap]

section

variable {before after cs ds front ws back : List Word} {name : Word}
  (hcs : cs = [] ∨ cs = [Word.comma]) (hds : ds = [] ∨ ds = [Word.comma])
  (hfront : front.map Word.chars = (before ++ cs).map Word.chars)
  (hafter : AtEntry (after.map Word.kind)) (hname : name.kind = .fieldName)
  (hws : Balanced (ws.map Word.kind))
include hcs hds hfront hafter hname hws

/-- On both sides of words that are put in with commas, the words stay the same. -/
theorem classify_spliced (hback : back.map Word.chars = (ds ++ after).map Word.chars)
    (h : before ++ after = Context.empty.classify ((before ++ after).map Word.lexeme))
    (h' : front ++ name :: (ws ++ back) =
      Context.empty.classify ((front ++ name :: (ws ++ back)).map Word.lexeme)) :
    front = before ++ cs ∧ back = ds ++ after := by
  -- `ctx` is what stands before `after`, without the new words
  obtain ⟨us, ctx, hus, hlen, -, hinert⟩ :=
    classify_append .empty (before.map Word.lexeme) (after.map Word.lexeme)
  rw [← List.map_append, ← h] at hus
  rw [List.length_map] at hlen
  obtain ⟨rfl, hctx⟩ := List.append_inj hus hlen.symm
  rw [hctx] at hafter
  have hname' : Shape.Inert (nextSignificant ((name :: (ws ++ back)).map Word.lexeme)) := by
    obtain ⟨us, ctx', hus, hlen, -, -⟩ := classify_append .empty (front.map Word.lexeme)
      ((name :: (ws ++ back)).map Word.lexeme)
    rw [← List.map_append, ← h'] at hus
    rw [List.length_map] at hlen
    exact inert_of_classify (List.append_inj hus hlen.symm).2.symm (by rw [hname]; decide)
  have hcomma : Shape.Inert
      (nextSignificant (cs.map Word.lexeme ++ (name :: (ws ++ back)).map Word.lexeme)) := by
    rcases hcs with rfl | rfl
    · exact hname'
    · exact ⟨nofun, rfl⟩
  rw [List.map_append, Word.map_lexeme_congr hfront, List.map_append, List.append_assoc,
    hinert _ (inert_of_atEntry hafter) hcomma] at h'
  obtain ⟨ctx₁, hnesting₁, h₁⟩ := classify_comma hcs ctx ((name :: (ws ++ back)).map Word.lexeme)
  rw [h₁, ← List.append_assoc] at h'
  have hlength := congrArg List.length hfront
  rw [List.length_map, List.length_map] at hlength
  obtain ⟨hfront, h'⟩ := List.append_inj h' hlength
  refine ⟨hfront, ?_⟩
  -- `ctx₂` is what stands before `back`
  obtain ⟨us, ctx₂, hus, hlen, hnesting₂, -⟩ := classify_append ctx₁
    ((name :: ws).map Word.lexeme) (back.map Word.lexeme)
  rw [← List.map_append, List.cons_append, ← h', ← List.cons_append] at hus
  rw [List.length_map] at hlen
  obtain ⟨rfl, hback'⟩ := List.append_inj hus hlen.symm
  have hbalanced : Balanced ((name :: ws).map Word.kind) := .cons (by rw [hname]; decide) hws
  rw [hbalanced.foldl_afterKind, hnesting₁] at hnesting₂
  obtain ⟨ctx₃, hnesting₃, h₃⟩ := classify_comma hds ctx₂ (after.map Word.lexeme)
  rw [hback', Word.map_lexeme_congr hback, List.map_append, h₃,
    classify_atEntry (hnesting₃.trans hnesting₂).symm hafter, ← hctx]

/-- Between `before` and `after`, where an entry can stand, `name` and balanced words `ws` are put
in, with commas. If the characters of the words on both sides are those of `before` and `after` and
of the commas, then they are the same words. -/
theorem words_spliced {source source' : String}
    (hback : back.map Word.chars = (ds ++ after).map Word.chars)
    (hsource : Token.words (tokenize source) = before ++ after)
    (hsource' : Token.words (tokenize source') = front ++ name :: (ws ++ back)) :
    front = before ++ cs ∧ back = ds ++ after := by
  obtain ⟨us, hus, h⟩ := exists_words_eq source
  obtain ⟨vs, hvs, h'⟩ := exists_words_eq source'
  have hne : after ≠ [] := by
    rintro rfl
    cases hafter
  have hne' : back ≠ [] := by
    rintro rfl
    exact hne (List.append_eq_nil_iff.1 (List.map_eq_nil_iff.1 hback.symm)).2
  obtain ⟨after, e, rfl⟩ := (List.eq_nil_or_concat' after).resolve_left hne
  obtain ⟨back, e', rfl⟩ := (List.eq_nil_or_concat' back).resolve_left hne'
  rw [hus, ← List.append_assoc] at hsource
  obtain ⟨rfl, he⟩ := List.append_inj' hsource rfl
  rw [hvs, ← List.append_assoc, ← List.cons_append, ← List.append_assoc] at hsource'
  obtain ⟨rfl, he'⟩ := List.append_inj' hsource' rfl
  cases he
  cases he'
  rw [← List.append_assoc, List.map_append, List.map_append] at hback
  rw [List.map_append] at hafter
  obtain ⟨hfront, hback⟩ := classify_spliced hcs hds hfront hafter.of_append_eof hname hws
    (List.append_inj' hback rfl).1 h h'
  exact ⟨hfront, by rw [hback, List.append_assoc]⟩

end

/-! ### Words in brackets -/

theorem Lexeme.longest_square {c : Char} {cs : List Char} :
    ((longest c cs).1 = .openBracket → c = '[' ∧ (longest c cs).2 = 0) ∧
      ((longest c cs).1 = .closeBracket → c = ']' ∧ (longest c cs).2 = 0) := by
  unfold longest
  repeat' split
  all_goals grind

/-- A square bracket stands alone. -/
theorem Lexeme.chars_of_square {cs : List Char} {l : Lexeme} (h : l ∈ scan cs) :
    (l.shape = .openBracket → l.chars = ['[']) ∧ (l.shape = .closeBracket → l.chars = [']']) := by
  fun_induction scan cs with
  | case1 => cases h
  | case2 c cs shape n hlongest ih =>
    rcases List.mem_cons.1 h with rfl | h
    · have hsquare := @longest_square c cs
      rw [hlongest] at hsquare
      constructor
      · intro hs
        obtain ⟨rfl, rfl⟩ := hsquare.1 hs
        rfl
      · intro hs
        obtain ⟨rfl, rfl⟩ := hsquare.2 hs
        rfl
    · exact ih h

theorem Context.shape_of_kindOf_square {ctx : Context} {l : Lexeme} {ls : List Lexeme} :
    (ctx.kindOf l ls = .arrayStart → l.shape = .openBracket) ∧
      (ctx.kindOf l ls = .arrayEnd → l.shape = .closeBracket) := by
  obtain ⟨shape, chars⟩ := l
  cases shape with
  | word =>
    have hmem := kindOf_word_mem ctx.previous (nextSignificant ls) ctx.nesting
    change (wordKind _ _ _ = _ → _) ∧ (wordKind _ _ _ = _ → _)
    generalize wordKind ctx.previous (nextSignificant ls) ctx.nesting = k at hmem
    constructor
    · rintro rfl
      exact absurd hmem (by decide)
    · rintro rfl
      exact absurd hmem (by decide)
  | quoted =>
    simp only [kindOf]
    split <;> simp
  | openBracket | closeBracket => simp [kindOf]
  | _ => constructor <;> (intro h; cases h)

/-- A square bracket is one word. -/
theorem Token.word_of_square {source : String} {t : Token} (h : t ∈ tokenize source) :
    (t.kind = .arrayStart → t.word = .openSquare) ∧ (t.kind = .arrayEnd → t.word = .closeSquare) := by
  rcases List.mem_append.1 h with h | h
  · obtain ⟨l, hl, hchars, ctx, ls, hkind⟩ := TokenStream.exists_of_mem_place h
    have hshape := @shape_of_kindOf_square ctx l ls
    have hsquare := Lexeme.chars_of_square hl
    rw [← hkind] at hshape
    constructor
    · intro hk
      rw [word, hk, hchars, hsquare.1 (hshape.1 hk)]
      rfl
    · intro hk
      rw [word, hk, hchars, hsquare.2 (hshape.2 hk)]
      rfl
  · obtain rfl := List.mem_singleton.1 h
    constructor <;> (intro hk; cases hk)

/-- Behind balanced words the same brackets are open as in front of them. -/
theorem Context.classify_balanced {ctx : Context} {us vs : List Word}
    (hus : Balanced (us.map Word.kind)) (h : us ++ vs = ctx.classify ((us ++ vs).map Word.lexeme)) :
    ∃ ctx' : Context, ctx'.nesting = ctx.nesting ∧ vs = ctx'.classify (vs.map Word.lexeme) := by
  obtain ⟨ws, ctx', hws, hlen, hnesting, -⟩ :=
    classify_append ctx (us.map Word.lexeme) (vs.map Word.lexeme)
  rw [← List.map_append, ← h] at hws
  rw [List.length_map] at hlen
  obtain ⟨rfl, hvs⟩ := List.append_inj hws hlen.symm
  exact ⟨ctx', hnesting.trans (hus.foldl_afterKind _), hvs⟩

/-- What comes last in a list stays so behind another element. -/
theorem exists_concat {α : Type} {us xs ys : List α} {x e : α} (h : us ++ [e] = xs ++ x :: ys)
    (hx : x ≠ e) : ∃ zs, ys = zs ++ [e] ∧ us = xs ++ x :: zs := by
  rcases List.eq_nil_or_concat' ys with rfl | ⟨zs, z, rfl⟩
  · exact absurd (List.singleton_inj.1 (List.append_inj' h rfl).2).symm hx
  · rw [← List.cons_append, ← List.append_assoc] at h
    obtain ⟨rfl, hz⟩ := List.append_inj' h rfl
    exact ⟨zs, by rw [List.singleton_inj.1 hz], rfl⟩

section

variable {before inside after front ws back : List Word}
  (hfront : front.map Word.chars = (before ++ [Word.openSquare]).map Word.chars)
  (hinside : Balanced (inside.map Word.kind)) (hws : Balanced (ws.map Word.kind))
include hfront hinside hws

/-- Around the contents of an array the words stay the same. -/
theorem classify_enclosed (hback : back.map Word.chars = (.closeSquare :: after).map Word.chars)
    (h : before ++ .openSquare :: (inside ++ .closeSquare :: after) = Context.empty.classify
      ((before ++ .openSquare :: (inside ++ .closeSquare :: after)).map Word.lexeme))
    (h' : front ++ (ws ++ back) = Context.empty.classify ((front ++ (ws ++ back)).map Word.lexeme)) :
    front = before ++ [.openSquare] ∧ back = .closeSquare :: after := by
  -- `ctx` is what stands before the opening bracket, in both texts
  obtain ⟨us, ctx, hus, hlen, -, hinert⟩ := classify_append .empty (before.map Word.lexeme)
    ((Word.openSquare :: (inside ++ .closeSquare :: after)).map Word.lexeme)
  rw [← List.map_append, ← h] at hus
  rw [List.length_map] at hlen
  obtain ⟨rfl, hctx⟩ := List.append_inj hus hlen.symm
  have hinert' : ∀ vs : List Word,
      Shape.Inert (nextSignificant ((Word.openSquare :: vs).map Word.lexeme)) := fun _ =>
    ⟨nofun, rfl⟩
  rw [List.map_append, Word.map_lexeme_congr hfront, List.map_append, List.append_assoc,
    ← List.map_append, List.singleton_append, hinert _ (hinert' _) (hinert' _),
    List.map_cons, classify, List.append_cons] at h'
  have hlength := congrArg List.length hfront
  rw [List.length_map, List.length_map] at hlength
  obtain ⟨hfront, h'⟩ := List.append_inj h' (by rw [hlength]; simp)
  refine ⟨hfront, ?_⟩
  -- and the same brackets are open in front of the closing one
  obtain ⟨-, hctx⟩ := List.cons.inj hctx
  obtain ⟨ctx₁, hnesting₁, h₁⟩ := classify_balanced hinside hctx
  obtain ⟨ctx₂, hnesting₂, h₂⟩ := classify_balanced hws h'
  obtain ⟨-, hafter⟩ := List.cons.inj h₁
  rw [Word.map_lexeme_congr hback] at h₂
  rw [h₂, List.map_cons, classify]
  refine congrArg (_ :: ·) ?_
  refine Eq.trans ?_ hafter.symm
  have hctx : ctx₂.after Word.closeSquare.lexeme.shape = ctx₁.after Word.closeSquare.lexeme.shape := by
    rw [Context.after, Context.after, hnesting₁, hnesting₂]
    rfl
  rw [hctx]

/-- Between an opening and a closing square bracket balanced words are put in place of others. If
the characters of the words on both sides are what they were, then they are the same words. -/
theorem words_enclosed {source source' : String}
    (hback : back.map Word.chars = (.closeSquare :: after).map Word.chars)
    (hsource : Token.words (tokenize source) =
      before ++ .openSquare :: (inside ++ .closeSquare :: after))
    (hsource' : Token.words (tokenize source') = front ++ (ws ++ back)) :
    front = before ++ [.openSquare] ∧ back = .closeSquare :: after := by
  obtain ⟨us, hus, h⟩ := exists_words_eq source
  obtain ⟨vs, hvs, h'⟩ := exists_words_eq source'
  obtain ⟨b, back, rfl, hb, hback⟩ := List.map_eq_cons_iff.1 hback
  rw [hus, ← List.cons_append, ← List.append_assoc] at hsource
  rw [hvs, ← List.append_assoc] at hsource'
  obtain ⟨after, rfl, rfl⟩ := exists_concat hsource nofun
  obtain ⟨back, rfl, rfl⟩ := exists_concat hsource' (by rintro rfl; cases hb)
  rw [List.map_append, List.map_append] at hback
  have hback : (b :: back).map Word.chars = (.closeSquare :: after).map Word.chars :=
    List.cons_eq_cons.2 ⟨hb, (List.append_inj' hback rfl).1⟩
  rw [List.append_assoc, List.cons_append] at h
  rw [List.append_assoc] at h'
  obtain ⟨hfront, hback⟩ := classify_enclosed hfront hinside hws hback h h'
  exact ⟨hfront, congrArg (· ++ [_]) hback⟩

end

/-! ### Words in the place of others -/

section

variable {before old after front ws back : List Word} {name name' : Word}
  (hfront : front.map Word.chars = before.map Word.chars) (hname : name.kind = .fieldName)
  (hold : Balanced (old.map Word.kind)) (hafter : AtEntry (after.map Word.kind))
  (hname' : name'.kind = .fieldName) (hws : Balanced (ws.map Word.kind))
include hfront hname hold hafter hname' hws

/-- Around an entry that is changed the words stay the same. -/
theorem classify_replaced (hback : back.map Word.chars = after.map Word.chars)
    (h : before ++ name :: (old ++ after) =
      Context.empty.classify ((before ++ name :: (old ++ after)).map Word.lexeme))
    (h' : front ++ name' :: (ws ++ back) =
      Context.empty.classify ((front ++ name' :: (ws ++ back)).map Word.lexeme)) :
    front = before ∧ back = after := by
  -- `ctx` is what stands before the name, in both texts
  obtain ⟨us, ctx, hus, hlen, -, hinert⟩ := classify_append .empty (before.map Word.lexeme)
    ((name :: (old ++ after)).map Word.lexeme)
  rw [← List.map_append, ← h] at hus
  rw [List.length_map] at hlen
  obtain ⟨rfl, hctx⟩ := List.append_inj hus hlen.symm
  have hnext : Shape.Inert (nextSignificant ((name :: (old ++ after)).map Word.lexeme)) :=
    inert_of_classify hctx.symm (by rw [hname]; decide)
  have hnext' : Shape.Inert (nextSignificant ((name' :: (ws ++ back)).map Word.lexeme)) := by
    obtain ⟨us, ctx', hus, hlen, -, -⟩ := classify_append .empty (front.map Word.lexeme)
      ((name' :: (ws ++ back)).map Word.lexeme)
    rw [← List.map_append, ← h'] at hus
    rw [List.length_map] at hlen
    exact inert_of_classify (List.append_inj hus hlen.symm).2.symm (by rw [hname']; decide)
  rw [List.map_append, Word.map_lexeme_congr hfront, hinert _ hnext hnext'] at h'
  have hlength := congrArg List.length hfront
  rw [List.length_map, List.length_map] at hlength
  obtain ⟨hfront, h'⟩ := List.append_inj h' hlength
  refine ⟨hfront, ?_⟩
  -- and the same brackets are open in front of the next entry
  have hentry : Balanced ((name :: old).map Word.kind) := .cons (by rw [hname]; decide) hold
  have hentry' : Balanced ((name' :: ws).map Word.kind) := .cons (by rw [hname']; decide) hws
  rw [← List.cons_append] at hctx h'
  obtain ⟨ctx₁, hnesting₁, h₁⟩ := classify_balanced hentry hctx
  obtain ⟨ctx₂, hnesting₂, h₂⟩ := classify_balanced hentry' h'
  rw [h₁] at hafter
  rw [Word.map_lexeme_congr hback, classify_atEntry (hnesting₁.trans hnesting₂.symm) hafter] at h₂
  rw [h₂, ← h₁]

/-- An entry is put in the place of another one, with balanced words behind its name, in front of a
place where an entry can stand. If the characters of the words on both sides are what they were,
then they are the same words. -/
theorem words_replaced {source source' : String}
    (hback : back.map Word.chars = after.map Word.chars)
    (hsource : Token.words (tokenize source) = before ++ name :: (old ++ after))
    (hsource' : Token.words (tokenize source') = front ++ name' :: (ws ++ back)) :
    front = before ∧ back = after := by
  obtain ⟨us, hus, h⟩ := exists_words_eq source
  obtain ⟨vs, hvs, h'⟩ := exists_words_eq source'
  have hne : after ≠ [] := by
    rintro rfl
    cases hafter
  have hne' : back ≠ [] := by
    rintro rfl
    exact hne (List.map_eq_nil_iff.1 hback.symm)
  obtain ⟨after, e, rfl⟩ := (List.eq_nil_or_concat' after).resolve_left hne
  obtain ⟨back, e', rfl⟩ := (List.eq_nil_or_concat' back).resolve_left hne'
  rw [hus, ← List.append_assoc, ← List.cons_append, ← List.append_assoc] at hsource
  rw [hvs, ← List.append_assoc, ← List.cons_append, ← List.append_assoc] at hsource'
  obtain ⟨rfl, he⟩ := List.append_inj' hsource rfl
  obtain ⟨rfl, he'⟩ := List.append_inj' hsource' rfl
  cases he
  cases he'
  rw [List.map_append, List.map_append] at hback
  rw [List.map_append] at hafter
  obtain ⟨hfront, hback⟩ := classify_replaced hfront hname hold hafter.of_append_eof hname' hws
    (List.append_inj' hback rfl).1 h h'
  exact ⟨hfront, by rw [hback]⟩

end

end Blueprint
