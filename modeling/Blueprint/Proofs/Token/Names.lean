import Blueprint.Proofs.Token.Literal
import Blueprint.Proofs.Token.Open

/-!
# Names

What the kind of a name is (`TokenKind.ofName`): it depends on the tokens that are not trivia next to
it, and on what it is directly inside of. The kinds are assigned in one pass over the text, with the
open brackets and the last token running along, and each name gets the one that the tokens around it
call for (`tokenize_classified`).
-/

namespace Blueprint

open Lexeme Text.Quoted

/-- The characters of a name: a letter or underscore, then letters, digits and underscores. -/
def IsName (cs : List Char) : Prop :=
  ∃ c ds, cs = c :: ds ∧ isWordStart c = true ∧ (∀ d ∈ ds, isWordPart d = true) ∧
    cs ≠ "true".toList ∧ cs ≠ "false".toList

namespace TokenKind

/-- The kinds that names have. -/
def names : List TokenKind := [.blueprintTypeName, .variableName, .fieldName, .variableValueRef]

/-- The kind of a name, by the tokens before and after it that are not trivia and what it is directly
inside of. The first rule that applies decides. -/
def ofName (previous next : Option TokenKind) (inside : Option Bracket) : TokenKind :=
  if next = some .objectStart then .blueprintTypeName
  else if inside = some .square then .variableName
  else if next = some .equals ∨ next = some .plusEquals then
    if inside = none then .variableName else .fieldName
  else if previous = some .equals ∨ previous = some .plusEquals ∨ previous = some .plus then
    .variableValueRef
  else if inside = none then .variableName else .fieldName

end TokenKind

/-! ### Lexemes -/

namespace Lexeme

theorem isBlank_of_isWordStart {c : Char} (h : isWordStart c = true) : isBlank c = false := by
  refine Bool.eq_false_iff.2 fun hblank => ?_
  simp only [isBlank, Bool.or_eq_true, beq_iff_eq, or_assoc] at hblank
  rcases hblank with rfl | rfl | rfl | rfl | rfl <;> exact absurd h (by decide)

theorem longest_of_word {c : Char} {cs : List Char} : (longest c cs).1 = .word →
    isWordStart c = true ∧ (longest c cs).2 = run isWordPart cs ∧
      ¬(c :: cs.takeWhile isWordPart = "true".toList ∨
        c :: cs.takeWhile isWordPart = "false".toList) := by
  unfold longest
  repeat' split
  all_goals grind

theorem shape_eq_word_iff {cs : List Char} {us vs : List Lexeme} {l : Lexeme}
    (h : scan cs = us ++ l :: vs) : l.shape = .word ↔ IsName l.chars := by
  constructor
  · intro hl
    obtain ⟨c, ds, hshape, hchars, -⟩ := exists_longest_of_scan h
    obtain ⟨hstart, hlength, hbool⟩ := longest_of_word (hshape.symm.trans hl)
    rw [hchars, hlength, take_run]
    exact ⟨c, _, rfl, hstart, fun d hd => List.mem_takeWhile_imp hd, not_or.1 hbool⟩
  · rintro ⟨c, ds, hchars, hstart, hpart, hbool⟩
    have hword : c :: ds.takeWhile isWordPart = l.chars := by
      rw [hchars, List.takeWhile_eq_self_iff.2 hpart]
    rw [shape_of_mem_scan (h ▸ List.mem_append_right us (.head vs)), hchars, shapeOf]
    simp only [longest, isBlank_of_isWordStart hstart, hstart, hword, hbool, Bool.false_eq_true,
      if_false, if_true, or_self]

end Lexeme

namespace Context

variable {ctx : Context} {l : Lexeme} {ls : List Lexeme}

theorem kindOf_mem_names_iff : ctx.kindOf l ls ∈ TokenKind.names ↔ l.shape = .word := by
  obtain ⟨shape, chars⟩ := l
  cases shape with
  | word => exact iff_of_true (kindOf_word_mem _ _ _) rfl
  | quoted => simp only [kindOf]; split <;> decide
  | _ => simp [kindOf, TokenKind.names]

theorem kindOf_eq_objectStart_iff : ctx.kindOf l ls = .objectStart ↔ l.shape = .openBrace := by
  obtain ⟨shape, chars⟩ := l
  cases shape with
  | word =>
    have hnames : ∀ k ∈ TokenKind.names, k ≠ .objectStart := by decide
    exact iff_of_false (hnames _ (kindOf_word_mem _ _ _)) nofun
  | quoted => simp only [kindOf]; split <;> decide
  | _ => simp [kindOf]

theorem kindOf_assigns_iff :
    (ctx.kindOf l ls = .equals ∨ ctx.kindOf l ls = .plusEquals) ↔ l.shape.assigns = true := by
  obtain ⟨shape, chars⟩ := l
  cases shape with
  | word =>
    have hnames : ∀ k ∈ TokenKind.names, ¬(k = .equals ∨ k = .plusEquals) := by decide
    exact iff_of_false (hnames _ (kindOf_word_mem _ _ _)) nofun
  | quoted => simp only [kindOf]; split <;> decide
  | _ => simp [kindOf, Shape.assigns]

theorem kindOf_eq_link_iff : ctx.kindOf l ls = .link ↔
    l.shape = .quoted ∧ l.chars.take 2 = ['"', ':'] ∧ ctx.nesting.head? = some .square := by
  obtain ⟨shape, chars⟩ := l
  cases shape with
  | word =>
    have hnames : ∀ k ∈ TokenKind.names, k ≠ .link := by decide
    exact iff_of_false (hnames _ (kindOf_word_mem _ _ _)) nofun
  | quoted => simp only [kindOf]; split <;> grind
  | _ => simp [kindOf]

/-- A link is a literal that starts with a colon, directly inside an array. -/
theorem kindOf_eq_link_iff_literal {cs : List Char} {us : List Lexeme}
    (h : scan cs = us ++ l :: ls) : ctx.kindOf l ls = .link ↔
      (∃ body value, Literal l.chars (':' :: body) value) ∧ ctx.nesting.head? = some .square := by
  rw [kindOf_eq_link_iff, ← and_assoc]
  refine and_congr_left fun _ => ⟨fun ⟨hshape, htake⟩ => ?_, fun ⟨body, value, H⟩ => ?_⟩
  · obtain ⟨body, value, H⟩ := literal_of_scan h hshape
    rw [H.chars_eq] at htake
    cases body with
    | nil => exact absurd htake (by decide)
    | cons c body =>
      obtain rfl : c = ':' := by simpa using htake
      exact ⟨body, value, H⟩
  · exact ⟨shape_of_literal h H, by rw [H.chars_eq]; rfl⟩

/-- The kind of a word in terms of tokens. -/
theorem kindOf_eq_ofName {previous next : Option TokenKind} (hl : l.shape = .word)
    (hbrace : nextSignificant ls = some .openBrace ↔ next = some .objectStart)
    (hassigns : (nextSignificant ls).any Shape.assigns = true ↔
      next = some .equals ∨ next = some .plusEquals)
    (hawaits : ctx.awaitsValue = true ↔
      previous = some .equals ∨ previous = some .plusEquals ∨ previous = some .plus) :
    ctx.kindOf l ls = .ofName previous next ctx.nesting.head? := by
  have hempty : ctx.nesting.isEmpty = true ↔ ctx.nesting.head? = none := by
    rw [List.isEmpty_iff, List.head?_eq_none_iff]
  obtain ⟨shape, chars⟩ := l
  obtain rfl : shape = .word := hl
  rw [awaitsValue] at hawaits
  simp only [kindOf, wordKind, TokenKind.ofName, hbrace, hassigns, hawaits, hempty]

end Context

/-! ### Tokens -/

namespace TokenStream

open Context Token

/-- A token among others: its lexeme, and what has been seen in front of it. -/
theorem exists_of_place_eq {index : Nat} {p : Position} {ctx : Context} {ls : List Lexeme}
    {before after : List Token} {t : Token} (h : place index p ctx ls = before ++ t :: after) :
    ∃ us l vs, ls = us ++ l :: vs ∧ t.kind = (ctx.afterAll us).kindOf l vs ∧ t.chars = l.chars ∧
      (∃ index' p' ctx', after = place index' p' ctx' vs) ∧
      (ctx.afterAll us).nesting = (before.map Token.kind).foldl Nesting.afterKind ctx.nesting ∧
      (ctx.afterAll us).awaitsValue =
        ((kindsOf before).getLast?.map TokenKind.awaitsValue).getD ctx.awaitsValue := by
  induction before generalizing index p ctx ls with
  | nil =>
    cases ls with
    | nil => cases h
    | cons l vs =>
      obtain ⟨rfl, rfl⟩ := List.cons.inj h
      exact ⟨[], l, vs, rfl, rfl, rfl, ⟨_, _, _, rfl⟩, rfl, rfl⟩
  | cons u before ih =>
    cases ls with
    | nil => cases h
    | cons l ls =>
      obtain ⟨rfl, hrest⟩ := List.cons.inj h
      obtain ⟨us, l', vs, rfl, hkind, hchars, hafter, hnesting, hawaits⟩ := ih hrest
      refine ⟨l :: us, l', vs, rfl, hkind, hchars, hafter, ?_, ?_⟩
      · have hstep : Nesting.after ctx.nesting l.shape =
            ctx.nesting.afterKind (ctx.kindOf l (us ++ l' :: vs)) := after_eq_afterKind _
        rw [List.map_cons, List.foldl_cons, ← hstep]
        exact hnesting
      · change ((ctx.after l.shape).afterAll us).awaitsValue = _
        rw [hawaits]
        cases hl : l.shape.isTrivia with
        | true =>
          rw [kindsOf_cons_trivia, after_trivia ctx hl]
          exact (isTrivia_kindOf ctx l _).trans hl
        | false =>
          rw [kindsOf_cons, List.getLast?_cons, awaitsValue_after ctx ctx hl (us ++ l' :: vs)]
          · cases (kindsOf before).getLast? <;> rfl
          · exact (isTrivia_kindOf ctx l _).trans hl

/-- What comes next, by the kinds of the tokens. -/
theorem nextSignificant_iff (index : Nat) (p : Position) (ctx : Context) (ls : List Lexeme)
    {eof : Token} (heof : eof.kind = .eof) :
    (nextSignificant ls = some .openBrace ↔
        (kindsOf (place index p ctx ls ++ [eof])).head? = some .objectStart) ∧
      ((nextSignificant ls).any Shape.assigns = true ↔
        (kindsOf (place index p ctx ls ++ [eof])).head? = some .equals ∨
          (kindsOf (place index p ctx ls ++ [eof])).head? = some .plusEquals) := by
  induction ls generalizing index p ctx with
  | nil =>
    have htrivia : eof.isTrivia = false := by rw [isTrivia, heof]; rfl
    rw [place, List.nil_append, kindsOf_cons htrivia, heof]
    exact ⟨by simp [nextSignificant], by simp [nextSignificant]⟩
  | cons l ls ih =>
    cases hl : l.shape.isTrivia with
    | true =>
      have hnext : nextSignificant (l :: ls) = nextSignificant ls := by
        rw [nextSignificant, nextSignificant, List.find?_cons_of_neg (by simp [hl])]
      rw [hnext, place, List.cons_append, kindsOf_cons_trivia]
      · exact ih _ _ _
      · exact (isTrivia_kindOf ctx l ls).trans hl
    | false =>
      rw [nextSignificant_cons hl, place, List.cons_append, kindsOf_cons]
      · simp only [List.head?_cons, Option.some.injEq, Option.any_some]
        exact ⟨kindOf_eq_objectStart_iff.symm, kindOf_assigns_iff.symm⟩
      · exact (isTrivia_kindOf ctx l ls).trans hl

end TokenStream

theorem awaitsValue_iff (k? : Option TokenKind) : (k?.map TokenKind.awaitsValue).getD false = true ↔
    k? = some .equals ∨ k? = some .plusEquals ∨ k? = some .plus := by
  cases k? with
  | none => simp
  | some k => cases k <;> simp [TokenKind.awaitsValue]

/-- The kinds of the tokens of a text. -/
def tokenKinds (source : String) : List TokenKind := (tokenize source).map Token.kind

section

open Token TokenStream Context

variable {source : String} {before after : List Token} {t : Token}

/-- A token of a text is the last one, or it has been made from a lexeme in the light of the tokens
around it. -/
theorem exists_of_tokenize_eq (h : tokenize source = before ++ t :: after) :
    (t.kind = .eof ∧ t.chars = []) ∨ ∃ us l vs, ∃ ctx : Context,
      scan source.toList = us ++ l :: vs ∧ t.kind = ctx.kindOf l vs ∧ t.chars = l.chars ∧
      ctx.nesting = (before.map Token.kind).foldl Nesting.afterKind [] ∧
      (l.shape = .word → ctx.kindOf l vs =
        .ofName (kindsOf before).getLast? (kindsOf after).head? ctx.nesting.head?) := by
  rcases List.eq_nil_or_concat' after with rfl | ⟨zs, z, rfl⟩
  · obtain rfl := List.singleton_inj.1 (List.append_inj' h rfl).2
    exact .inl ⟨rfl, rfl⟩
  · rw [← List.cons_append, ← List.append_assoc] at h
    obtain ⟨hbody, hz⟩ := List.append_inj' h rfl
    have heof : z.kind = .eof := by rw [← List.singleton_inj.1 hz]; rfl
    obtain ⟨us, l, vs, hscan, hkind, hchars, ⟨index, p, ctx, rfl⟩, hnesting, hawaits⟩ :=
      exists_of_place_eq hbody
    refine .inr ⟨us, l, vs, _, hscan, hkind, hchars, hnesting, fun hl => ?_⟩
    obtain ⟨hbrace, hassigns⟩ := nextSignificant_iff index p ctx vs heof
    exact kindOf_eq_ofName hl hbrace hassigns (by rw [hawaits]; exact awaitsValue_iff _)

/-- A name has the kind that the tokens around it call for, and no other token has the kind of a name.
A double-quoted literal that starts with a colon is a link directly inside an array, and a string
elsewhere. What a token is directly inside of is told by the brackets that are open in front of it.
Where all brackets are balanced, these are the pairs around the token. -/
structure Token.Classified (source : String) (before : List Token) (t : Token)
    (after : List Token) (inside : Option Bracket) : Prop where
  inside_iff : ∀ x, Inside (tokenKinds source) before.length x ↔ x = inside
  name_iff : IsName t.chars ↔ t.kind ∈ TokenKind.names
  name : IsName t.chars → t.kind = .ofName (kindsOf before).getLast? (kindsOf after).head? inside
  link_iff : t.kind = .link ↔
    (∃ body value, Literal t.chars (':' :: body) value) ∧ inside = some .square
  pairs : Balanced (tokenKinds source) → t.kind ∉ TokenKind.brackets → ∀ i,
    (StillOpen (tokenKinds source) before.length i ↔
      ∃ j, Pair (tokenKinds source) i j ∧ i < before.length ∧ before.length < j)

/-- Every token of a text has been classified by what stands around it. -/
theorem tokenize_classified (h : tokenize source = before ++ t :: after) :
    ∃ inside, Token.Classified source before t after inside := by
  have hkinds : tokenKinds source = before.map Token.kind ++ t.kind :: after.map Token.kind := by
    rw [tokenKinds, h, List.map_append, List.map_cons]
  obtain ⟨ps, H, hps⟩ := exists_places (tokenKinds source) before.length (by
    rw [hkinds, List.length_append, List.length_map]
    exact Nat.le_add_right _ _)
  have htake : (tokenKinds source).take before.length = before.map Token.kind := by
    rw [hkinds, List.take_left' (List.length_map _)]
  rw [htake] at hps
  have hbalanced (hb : Balanced (tokenKinds source)) (hk : t.kind ∉ TokenKind.brackets) (i : Nat) :
      StillOpen (tokenKinds source) before.length i ↔
        ∃ j, Pair (tokenKinds source) i j ∧ i < before.length ∧ before.length < j := by
    rw [hb.stillOpen_iff]
    refine exists_congr fun j => and_congr_right fun hpair => and_congr_right fun _ =>
      ⟨fun hle => hle.lt_of_ne fun hj => hk ?_, Nat.le_of_lt⟩
    obtain ⟨b, -, hcloses, -⟩ := hpair.exists_bracket
    obtain ⟨k, hget, hbracket⟩ := isBracket_of_closesAt hcloses
    rw [← hj, hkinds, List.getElem?_append_right (by rw [List.length_map]), List.length_map,
      Nat.sub_self] at hget
    exact Option.some.inj hget ▸ hbracket
  rcases exists_of_tokenize_eq h with ⟨hkind, hchars⟩ | ⟨us, l, vs, ctx, hscan, hkind, hchars,
    hnesting, hname⟩
  · have hnot : ¬IsName t.chars := by
      rintro ⟨c, ds, hcons, -⟩
      rw [hchars] at hcons
      cases hcons
    refine ⟨_, H.inside_iff, iff_of_false hnot (by rw [hkind]; decide), fun hn => absurd hn hnot,
      iff_of_false (by rw [hkind]; nofun) ?_, hbalanced⟩
    rintro ⟨⟨body, value, hliteral⟩, -⟩
    have hcons := hliteral.chars_eq
    rw [hchars] at hcons
    cases hcons
  · refine ⟨_, H.inside_iff, ?_, ?_, ?_, hbalanced⟩
    · rw [hkind, hchars, ← shape_eq_word_iff hscan]
      exact kindOf_mem_names_iff.symm
    · rw [hkind, hchars, ← shape_eq_word_iff hscan, ← hps, ← hnesting]
      exact hname
    · rw [hkind, hchars, ← hps, ← hnesting]
      exact kindOf_eq_link_iff_literal hscan

end

/-- A brace that is closed early closes the bracket inside it too, so the name behind it stands at
file scope. -/
theorem tokenize_classified_closed_early : ∃ before t after,
    tokenize "m\x7ba:[b\x7dc" = before ++ t :: after ∧ t.chars = ['c'] ∧ t.kind = .variableName ∧
      ∃ inside, Token.Classified "m\x7ba:[b\x7dc" before t after inside := by
  have hlength : 7 < (tokenize "m\x7ba:[b\x7dc").length := by decide +kernel
  have hget : (tokenize "m\x7ba:[b\x7dc")[7]?.map (fun t => (t.chars, t.kind)) =
      some (['c'], .variableName) := by decide +kernel
  rw [List.getElem?_eq_getElem hlength] at hget
  obtain ⟨hchars, hkind⟩ := Prod.mk.inj (Option.some.inj hget)
  have hsplit : tokenize "m\x7ba:[b\x7dc" = (tokenize "m\x7ba:[b\x7dc").take 7 ++
      (tokenize "m\x7ba:[b\x7dc")[7] :: (tokenize "m\x7ba:[b\x7dc").drop 8 := by
    rw [← List.drop_eq_getElem_cons hlength, List.take_append_drop]
  exact ⟨_, _, _, hsplit, hchars, hkind, tokenize_classified hsplit⟩

end Blueprint
