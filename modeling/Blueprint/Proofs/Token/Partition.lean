import Mathlib.Data.List.Chain
import Blueprint.Proofs.Token.Stream

/-!
# Tokens partition the text

The tokens of a text stand side by side from its start to its end, each with the line and column of
its first character, and a token without meaning is one character or a literal that is not closed
(`tokenize_partition`). Lines and columns are counted here from the text in front of a token, with
no counter running along (`Position.after_first`).
-/

namespace Blueprint

namespace Text

/-- The line, counted from one, of the place that has `before` in front of it. -/
def lineAfter (before : List Char) : Nat := 1 + before.count '\n'

/-- The column of that place, counted from one in characters from the last newline on. -/
def columnAfter (before : List Char) : Nat := 1 + (before.reverse.takeWhile (· ≠ '\n')).length

theorem byteLength_toList (s : String) : byteLength s.toList = s.utf8ByteSize := by
  have h : ∀ cs, byteLength cs = (String.ofList cs).utf8ByteSize := by
    intro cs
    induction cs with
    | nil => rfl
    | cons c cs ih =>
      rw [byteLength, ih, ← List.singleton_append, String.ofList_append, String.utf8ByteSize_append]
      exact congrArg (· + _) String.utf8ByteSize_singleton.symm
  rw [h, String.ofList_toList]

/-- The byte length of a prefix is a character boundary. -/
theorem isValid_byteLength {s : String} {before after : List Char}
    (h : s.toList = before ++ after) :
    String.Pos.Raw.IsValid s ⟨byteLength before⟩ := by
  refine String.Pos.Raw.isValid_iff_exists_append.2 ⟨.ofList before, .ofList after, ?_, ?_⟩
  · rw [← String.ofList_append, ← h, String.ofList_toList]
  · rw [← String.toList_ofList (l := before), byteLength_toList, String.toList_ofList]
    rfl

namespace Quoted

/-- A double quote occurs that no backslash takes with it. -/
def hasQuote : List Char → Bool
  | [] => false
  | ['\\'] => false
  | '\\' :: _ :: cs => hasQuote cs
  | c :: cs => c == '"' || hasQuote cs

/-- A literal without its closing delimiter, in front of `after`: a double quote and no other on the
line, or a backquote and no other in the text. -/
def Unterminated (chars after : List Char) : Prop :=
  (∃ body, chars = '"' :: body ∧ hasQuote body = false ∧ '\n' ∉ body ∧
    (after = [] ∨ after.head? = some '\n')) ∨
  ∃ body, chars = '\x60' :: body ∧ '\x60' ∉ body ∧ after = []

end Quoted

end Text

open Text Text.Quoted

theorem Position.after_first (cs : List Char) :
    Position.first.after cs = ⟨byteLength cs, lineAfter cs, columnAfter cs⟩ := by
  induction cs using List.reverseRecOn with
  | nil => rfl
  | append_singleton cs c ih =>
    rw [after_append, ih, after_cons, after_nil, next]
    split
    · next h => subst h; simp [lineAfter, columnAfter, Nat.add_assoc]
    · next h => simp [lineAfter, columnAfter, h, Nat.add_comm]

namespace Lexeme

theorem quotedExtent_open {cs : List Char} (h : (quotedExtent cs).closed = false) :
    hasQuote (cs.take (quotedExtent cs).length) = false ∧
      '\n' ∉ cs.take (quotedExtent cs).length ∧
      (cs.drop (quotedExtent cs).length = [] ∨
        (cs.drop (quotedExtent cs).length).head? = some '\n') := by
  fun_induction quotedExtent cs with
  | case1 => simp [hasQuote]
  | case2 => cases h
  | case3 => simp [hasQuote]
  | case4 => simp [hasQuote]
  | case5 c cs hc ih =>
    obtain ⟨hquote, hline, hrest⟩ := ih h
    have hc' : '\n' ≠ c := fun h' => hc h'.symm
    exact ⟨hquote, by simpa [Extent.add, hc'] using hline, hrest⟩
  | case6 c cs hquote hline h3 h4 ih =>
    obtain ⟨hquote', hline', hrest⟩ := ih h
    have hc : '\n' ≠ c := fun h' => hline h'.symm
    refine ⟨?_, by simpa [Extent.add, hc] using hline', hrest⟩
    -- a backslash gets here only at the end of the text, where it has nothing to take with it
    by_cases hback : c = '\\'
    · subst hback
      cases cs with
      | nil => rfl
      | cons d cs => exact (h4 d cs rfl rfl).elim
    · rw [Extent.add, List.take_succ_cons, hasQuote]
      · rw [hquote', Bool.or_false, beq_eq_false_iff_ne]
        exact hquote
      · exact fun h _ => hback h
      · exact fun _ _ h _ => hback h

/-- A backquoted literal is open when it reaches to the end of the text without a backquote. -/
theorem rawExtent_open {cs : List Char} (h : (rawExtent cs).closed = false) :
    (rawExtent cs).length = cs.length ∧ '\x60' ∉ cs := by
  fun_induction rawExtent cs with
  | case1 => simp
  | case2 => cases h
  | case3 c cs hc ih =>
    obtain ⟨hlength, hquote⟩ := ih h
    have hc' : '\x60' ≠ c := fun h' => hc h'.symm
    exact ⟨congrArg (· + 1) hlength, by simp [hc', hquote]⟩

/-- A character that starts nothing stands alone. -/
theorem longest_of_stray {c : Char} {cs : List Char} :
    (longest c cs).1 = .stray → (longest c cs).2 = 0 := by
  unfold longest
  repeat' split
  all_goals grind

theorem longest_of_unterminated {c : Char} {cs : List Char} :
    (longest c cs).1 = .unterminated →
      c = '"' ∧ (quotedExtent cs).closed = false ∧ (longest c cs).2 = (quotedExtent cs).length ∨
      c = '\x60' ∧ (rawExtent cs).closed = false ∧ (longest c cs).2 = (rawExtent cs).length := by
  unfold longest
  repeat' split
  all_goals grind

/-- A run without meaning is one character or a literal that is not closed. -/
theorem single_or_unterminated {c : Char} {cs : List Char} {shape : Shape} {n : Nat}
    (h : longest c cs = (shape, n)) (hshape : shape = .stray ∨ shape = .unterminated) :
    (c :: cs.take n).length = 1 ∨ Unterminated (c :: cs.take n) (cs.drop n) := by
  have h1 : (longest c cs).1 = shape := by rw [h]
  have h2 : (longest c cs).2 = n := by rw [h]
  rcases hshape with rfl | rfl
  · left
    rw [← h2, longest_of_stray h1]
    rfl
  · right
    rcases longest_of_unterminated h1 with ⟨rfl, hopen, hn⟩ | ⟨rfl, hopen, hn⟩
    · rw [← h2, hn]
      exact .inl ⟨_, rfl, quotedExtent_open hopen⟩
    · obtain ⟨hlength, hquote⟩ := rawExtent_open hopen
      rw [← h2, hn, hlength, List.take_length, List.drop_length]
      exact .inr ⟨_, rfl, hquote, rfl⟩

end Lexeme

/-- The token is the part of `source` between `before` and `after`, and its range says so. -/
structure Token.StandsIn (t : Token) (source before after : List Char) : Prop where
  source_eq : source = before ++ t.chars ++ after
  start : t.span.start = byteLength before
  stop : t.span.stop = byteLength (before ++ t.chars)
  line : t.span.line = lineAfter before
  column : t.span.column = columnAfter before

/-- The tokens cover the text from its start to its end, side by side and cut between characters;
only the last one is empty. -/
structure Token.Partition (source : String) (ts : List Token) : Prop where
  eof : ∃ body eof, ts = body ++ [eof] ∧ eof.kind = .eof ∧ eof.span.start = source.utf8ByteSize ∧
    eof.span.stop = source.utf8ByteSize ∧ ∀ t ∈ body, t.span.start < t.span.stop
  first : ∀ t ∈ ts.head?, t.span.start = 0
  adjacent : ts.IsChain fun t u => t.span.stop = u.span.start
  boundaries : ∀ t ∈ ts, String.Pos.Raw.IsValid source ⟨t.span.start⟩ ∧
    String.Pos.Raw.IsValid source ⟨t.span.stop⟩
  slices : ∀ t ∈ ts, t.span.slice source.toList = t.chars
  text : ts.flatMap Token.chars = source.toList
  places : ∀ t ∈ ts, ∃ before after, t.StandsIn source.toList before after ∧
    (t.kind = .error → t.chars.length = 1 ∨ Unterminated t.chars after)

namespace Token.StandsIn

variable {t : Token} {source before after : List Char}

theorem of_span (hsource : source = before ++ t.chars ++ after)
    (hspan : t.span = Span.ofText (Position.first.after before) t.chars) :
    t.StandsIn source before after := by
  rw [Position.after_first] at hspan
  exact ⟨hsource, by rw [hspan]; rfl, by rw [hspan, byteLength_append]; rfl, by rw [hspan]; rfl,
    by rw [hspan]; rfl⟩

theorem slice_eq (H : t.StandsIn source before after) : t.span.slice source = t.chars := by
  rw [Span.slice, H.start, H.stop, H.source_eq, byteLength_append, slice_append]

theorem boundaries {source : String} (H : t.StandsIn source.toList before after) :
    String.Pos.Raw.IsValid source ⟨t.span.start⟩ ∧ String.Pos.Raw.IsValid source ⟨t.span.stop⟩ := by
  rw [H.start, H.stop]
  exact ⟨isValid_byteLength (H.source_eq.trans (List.append_assoc _ _ _)),
    isValid_byteLength H.source_eq⟩

end Token.StandsIn

namespace TokenStream

open Lexeme

theorem standsIn_of_mem_place {index : Nat} {ctx : Context} {before rest : List Char} {t : Token}
    (h : t ∈ place index (Position.first.after before) ctx (scan rest)) :
    ∃ before' after, t.StandsIn (before ++ rest) before' after ∧ t.chars ≠ [] ∧
      (t.kind = .error → t.chars.length = 1 ∨ Unterminated t.chars after) := by
  fun_induction scan rest generalizing index ctx before with
  | case1 => cases h
  | case2 c cs shape n hlongest ih =>
    have hcut : before ++ c :: cs = before ++ (c :: cs.take n) ++ cs.drop n := by
      rw [List.append_assoc, List.cons_append, List.take_append_drop]
    rw [place, ← Position.after_append] at h
    rcases List.mem_cons.1 h with rfl | h
    · exact ⟨before, cs.drop n, .of_span hcut rfl, List.cons_ne_nil _ _, fun hkind =>
        single_or_unterminated hlongest (Context.shape_of_kindOf_error hkind)⟩
    · rw [hcut]
      exact ih h

theorem isChain_place (index : Nat) (p : Position) (ctx : Context) (ls : List Lexeme) (eof : Token)
    (h : eof.span.start = p.offset + byteLength (ls.flatMap chars)) :
    (∀ t ∈ (place index p ctx ls ++ [eof]).head?, t.span.start = p.offset) ∧
      (place index p ctx ls ++ [eof]).IsChain fun t u => t.span.stop = u.span.start := by
  induction ls generalizing index p ctx with
  | nil => exact ⟨fun t ht => by cases ht; exact h, .singleton _⟩
  | cons l ls ih =>
    obtain ⟨hhead, hchain⟩ := ih (index + 1) (p.after l.chars) (ctx.after l.shape) (by
      rw [h, List.flatMap_cons, byteLength_append, Position.offset_after, Nat.add_assoc])
    refine ⟨fun t ht => by cases ht; rfl, List.isChain_cons.2 ⟨fun u hu => ?_, hchain⟩⟩
    rw [hhead u hu, Position.offset_after]
    rfl

theorem flatMap_place (index : Nat) (p : Position) (ctx : Context) (ls : List Lexeme) :
    (place index p ctx ls).flatMap Token.chars = ls.flatMap chars := by
  induction ls generalizing index p ctx with
  | nil => rfl
  | cons l ls ih => rw [place, List.flatMap_cons, List.flatMap_cons, ih]

end TokenStream

/-- Put together, the tokens are the text. -/
theorem flatMap_tokenize (source : String) :
    (tokenize source).flatMap Token.chars = source.toList := by
  rw [tokenize, TokenStream.toList, TokenStream.ofChars, List.flatMap_append,
    TokenStream.flatMap_place, Lexeme.flatMap_scan]
  exact List.append_nil _

/-- Only the last token is empty. -/
theorem start_lt_stop_of_mem_body {source : String} {t : Token}
    (ht : t ∈ (TokenStream.ofChars source.toList).body) : t.span.start < t.span.stop := by
  obtain ⟨before, after, h, hne, -⟩ :=
    @TokenStream.standsIn_of_mem_place 0 .empty [] source.toList t ht
  rw [h.start, h.stop, byteLength_append]
  exact Nat.lt_add_of_pos_right <|
    Nat.lt_of_lt_of_le (List.length_pos_iff.2 hne) (length_le_byteLength _)

/-- The token for the end of the file is empty. -/
theorem start_eq_stop_of_eof {source : String} {t : Token} (ht : t ∈ tokenize source)
    (h : t.kind = .eof) : t.span.start = t.span.stop := by
  rcases List.mem_append.1 ht with ht | ht
  · exact absurd h (TokenStream.kind_ne_eof_of_mem_place _ _ _ _ ht)
  · rw [List.mem_singleton.1 ht]
    rfl

/-- The tokens of a text partition it. -/
theorem tokenize_partition (source : String) : Token.Partition source (tokenize source) := by
  let body := TokenStream.place 0 .first .empty (Lexeme.scan source.toList)
  let eof : Token := ⟨body.length, .eof, Span.ofText (Position.first.after source.toList) [], []⟩
  have hbody (t) (ht : t ∈ body) : ∃ before after, t.StandsIn source.toList before after ∧
      t.chars ≠ [] ∧ (t.kind = .error → t.chars.length = 1 ∨ Unterminated t.chars after) :=
    @TokenStream.standsIn_of_mem_place 0 .empty [] source.toList t ht
  have heof : eof.StandsIn source.toList source.toList [] :=
    .of_span (by rw [List.append_nil]; exact (List.append_nil _).symm) rfl
  have hplaces (t) (ht : t ∈ body ++ [eof]) : ∃ before after,
      t.StandsIn source.toList before after ∧
        (t.kind = .error → t.chars.length = 1 ∨ Unterminated t.chars after) := by
    rcases List.mem_append.1 ht with ht | ht
    · obtain ⟨before, after, h, -, herror⟩ := hbody t ht
      exact ⟨before, after, h, herror⟩
    · cases List.mem_singleton.1 ht
      exact ⟨_, _, heof, nofun⟩
  obtain ⟨hfirst, hadjacent⟩ := TokenStream.isChain_place 0 .first .empty
    (Lexeme.scan source.toList) eof (by
      rw [Lexeme.flatMap_scan, heof.start]; exact (Nat.zero_add _).symm)
  refine ⟨⟨body, eof, rfl, rfl, ?_, ?_, fun t => start_lt_stop_of_mem_body⟩, hfirst, hadjacent,
    fun t ht => ?_, fun t ht => ?_, ?_, hplaces⟩
  · rw [heof.start, byteLength_toList]
  · rw [heof.stop, List.append_nil, byteLength_toList]
  · obtain ⟨before, after, h, -⟩ := hplaces t ht
    exact h.boundaries
  · obtain ⟨before, after, h, -⟩ := hplaces t ht
    exact h.slice_eq
  · exact flatMap_tokenize source

end Blueprint
