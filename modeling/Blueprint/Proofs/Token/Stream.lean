import Blueprint.Token.Stream

/-!
# The tokens of a text in their order

What the grammar relies on: tokens are numbered one after another (`map_index_toList`), no token
but the last is of the end-of-file kind, and a module type has an opening brace as the next token
that is not trivia (`bracesFollow_ofChars`).
-/

namespace Blueprint

/-- The kinds of the tokens that are not trivia. -/
def Token.kindsOf (ts : List Token) : List TokenKind :=
  (ts.filter (!·.isTrivia)).map Token.kind

/-- A module type stands in front of an opening brace. -/
def BracesFollow (ks : List TokenKind) : Prop :=
  ∀ ks', .blueprintTypeName :: ks' <:+ ks → ks'.head? = some .objectStart

theorem BracesFollow.suffix {ks ks' : List TokenKind} (H : BracesFollow ks) (h : ks' <:+ ks) :
    BracesFollow ks' := fun _ h' => H _ (h'.trans h)

namespace Token

variable {t : Token} {ts : List Token}

theorem kindsOf_cons_trivia (h : t.isTrivia = true) : kindsOf (t :: ts) = kindsOf ts := by
  simp only [kindsOf, List.filter_cons, h, Bool.not_true, Bool.false_eq_true, if_false]

theorem kindsOf_cons (h : t.isTrivia = false) : kindsOf (t :: ts) = t.kind :: kindsOf ts := by
  simp only [kindsOf, List.filter_cons, h, Bool.not_false, if_true, List.map_cons]

theorem length_kindsOf_le : (kindsOf ts).length ≤ ts.length := by
  rw [kindsOf, List.length_map]
  exact List.length_filter_le _ _

/-- Leaving out the trivia at the front changes nothing. -/
theorem kindsOf_dropWhile : kindsOf (ts.dropWhile isTrivia) = kindsOf ts := by
  induction ts with
  | nil => rfl
  | cons t ts ih =>
    cases h : t.isTrivia with
    | true => rw [List.dropWhile_cons_of_pos h, ih, kindsOf_cons_trivia h]
    | false => rw [List.dropWhile_cons_of_neg (by rw [h]; decide)]

end Token

namespace Context

theorem wordKind_isTrivia (previous next : Option Shape) (nesting : Nesting) :
    (wordKind previous next nesting).isTrivia = false := by
  unfold wordKind
  repeat' split
  all_goals rfl

theorem isTrivia_kindOf (ctx : Context) (l : Lexeme) (ls : List Lexeme) :
    (ctx.kindOf l ls).isTrivia = l.shape.isTrivia := by
  obtain ⟨shape, chars⟩ := l
  cases shape with
  | word => exact wordKind_isTrivia _ _ _
  | quoted => simp only [kindOf]; split <;> rfl
  | _ => rfl

theorem kindOf_ne_eof (ctx : Context) (l : Lexeme) (ls : List Lexeme) : ctx.kindOf l ls ≠ .eof := by
  obtain ⟨shape, chars⟩ := l
  cases shape with
  | word => simp only [kindOf, wordKind]; repeat' split
            all_goals nofun
  | quoted => simp only [kindOf]; split <;> nofun
  | _ => nofun

/-- Only a literal that is not closed or a character that starts nothing has no meaning. -/
theorem shape_of_kindOf_error {ctx : Context} {l : Lexeme} {ls : List Lexeme}
    (h : ctx.kindOf l ls = .error) : l.shape = .stray ∨ l.shape = .unterminated := by
  obtain ⟨shape, chars⟩ := l
  cases shape with
  | stray => exact .inl rfl
  | unterminated => exact .inr rfl
  | word => simp only [kindOf, wordKind] at h; repeat' split at h
            all_goals cases h
  | quoted => simp only [kindOf] at h; split at h <;> cases h
  | _ => cases h

/-- Only a word in front of an opening brace is a module type. -/
theorem nextSignificant_of_kindOf {ctx : Context} {l : Lexeme} {ls : List Lexeme}
    (h : ctx.kindOf l ls = .blueprintTypeName) : nextSignificant ls = some .openBrace := by
  obtain ⟨shape, chars⟩ := l
  cases shape with
  | word =>
    simp only [kindOf, wordKind] at h
    split at h
    · assumption
    · repeat' split at h
      all_goals cases h
  | quoted => simp only [kindOf] at h; split at h <;> cases h
  | _ => cases h

end Context

namespace TokenStream

open Context Token

variable (index : Nat) (p : Position) (ctx : Context) (ls : List Lexeme)

theorem map_index_place : (place index p ctx ls).map Token.index = List.range' index ls.length := by
  induction ls generalizing index p ctx with
  | nil => rfl
  | cons l ls ih => rw [place, List.map_cons, ih, List.length_cons, List.range'_succ]

theorem length_place : (place index p ctx ls).length = ls.length := by
  have h := congrArg List.length (map_index_place index p ctx ls)
  rwa [List.length_map, List.length_range'] at h

theorem kind_ne_eof_of_mem_place {t : Token} (h : t ∈ place index p ctx ls) : t.kind ≠ .eof := by
  induction ls generalizing index p ctx with
  | nil => cases h
  | cons l ls ih =>
    rcases List.mem_cons.1 h with rfl | h
    · exact kindOf_ne_eof _ _ _
    · exact ih _ _ _ h

theorem kindsOf_place_of_trivia {l : Lexeme} (h : l.shape.isTrivia = true) :
    kindsOf (place index p ctx (l :: ls)) =
      kindsOf (place (index + 1) (p.after l.chars) (ctx.after l.shape) ls) := by
  rw [place, kindsOf_cons_trivia]
  exact (isTrivia_kindOf ctx l ls).trans h

theorem kindsOf_place_of_significant {l : Lexeme} (h : l.shape.isTrivia = false) :
    kindsOf (place index p ctx (l :: ls)) =
      ctx.kindOf l ls :: kindsOf (place (index + 1) (p.after l.chars) (ctx.after l.shape) ls) := by
  rw [place, kindsOf_cons]
  exact (isTrivia_kindOf ctx l ls).trans h

theorem head?_kindsOf_place (h : nextSignificant ls = some .openBrace) :
    (kindsOf (place index p ctx ls)).head? = some .objectStart := by
  induction ls generalizing index p ctx with
  | nil => cases h
  | cons l ls ih =>
    cases hl : l.shape.isTrivia with
    | true =>
      rw [kindsOf_place_of_trivia _ _ _ _ hl]
      refine ih _ _ _ ?_
      simpa only [nextSignificant, List.find?_cons, hl, Bool.not_true] using h
    | false =>
      rw [kindsOf_place_of_significant _ _ _ _ hl]
      simp only [nextSignificant, List.find?_cons, hl, Bool.not_false, Option.map_some,
        Option.some.injEq] at h
      simp only [List.head?_cons, kindOf, h]

theorem bracesFollow_place : BracesFollow (kindsOf (place index p ctx ls)) := by
  induction ls generalizing index p ctx with
  | nil => intro ks h; cases List.suffix_nil.1 h
  | cons l ls ih =>
    cases hl : l.shape.isTrivia with
    | true => rw [kindsOf_place_of_trivia _ _ _ _ hl]; exact ih _ _ _
    | false =>
      rw [kindsOf_place_of_significant _ _ _ _ hl]
      intro ks h
      rcases List.suffix_cons_iff.1 h with h | h
      · injection h with hk hks
        rw [hks]
        exact head?_kindsOf_place _ _ _ _ (nextSignificant_of_kindOf hk.symm)
      · exact ih _ _ _ ks h

variable (source : List Char)

theorem map_index_toList :
    (ofChars source).toList.map Token.index = List.range (ofChars source).toList.length := by
  rw [toList, List.map_append, List.length_append, List.length_singleton, List.range_succ]
  simp only [ofChars, map_index_place, length_place, List.map_cons, List.map_nil,
    List.range_eq_range']

/-- The end of the file comes last. -/
theorem takeWhile_toList :
    (ofChars source).toList.takeWhile (·.kind ≠ .eof) = (ofChars source).body := by
  have hbody : ∀ t ∈ (ofChars source).body, decide (t.kind ≠ .eof) = true := fun t ht =>
    decide_eq_true (kind_ne_eof_of_mem_place _ _ _ _ ht)
  rw [toList, List.takeWhile_append_of_pos hbody]
  exact List.append_nil _

end TokenStream

/-! ### Tokens by their indices -/

namespace Token

variable {ts us : List Token} {t : Token}

/-- A token has as many others in front of it as its index says. -/
theorem index_eq_length
    (h : (ts ++ t :: us).map Token.index = List.range (ts ++ t :: us).length) :
    t.index = ts.length := by
  have hget := congrArg (·[ts.length]?) h
  simpa using hget

/-- The tokens at the front of a text are the ones with the first indices. -/
theorem index_lt_iff (h : (ts ++ us).map Token.index = List.range (ts ++ us).length)
    (ht : t ∈ ts ++ us) : t.index < ts.length ↔ t ∈ ts := by
  rw [List.map_append, List.length_append, List.range_add] at h
  obtain ⟨hts, hus⟩ := List.append_inj h (by simp)
  refine ⟨fun hlt => (List.mem_append.1 ht).resolve_right fun hmem => ?_, fun hmem => ?_⟩
  · have hi := List.mem_map_of_mem (f := Token.index) hmem
    rw [hus, List.mem_map] at hi
    obtain ⟨i, -, hi⟩ := hi
    omega
  · have hi := List.mem_map_of_mem (f := Token.index) hmem
    rwa [hts, List.mem_range] at hi

end Token

theorem map_index_tokenize (source : String) :
    (tokenize source).map Token.index = List.range (tokenize source).length :=
  TokenStream.map_index_toList _

theorem nodup_index_tokenize (source : String) : ((tokenize source).map Token.index).Nodup :=
  map_index_tokenize source ▸ List.nodup_range

end Blueprint
