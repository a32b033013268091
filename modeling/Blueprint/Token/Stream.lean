import Blueprint.Token.Context

/-! The tokens of a text, in order, and the end-of-file token that closes them. -/

namespace Blueprint

/-- The tokens of a text: those that cover it, then the empty one at its end. -/
structure TokenStream where
  body : List Token
  eof : Token
deriving DecidableEq, Repr

namespace TokenStream

/-- The tokens that lexemes become when the first has number `index`, stands at `p` and comes
after `ctx`. -/
def place (index : Nat) (p : Position) (ctx : Context) : List Lexeme → List Token
  | [] => []
  | l :: ls =>
    ⟨index, ctx.kindOf l ls, Span.ofText p l.chars, l.chars⟩ ::
      place (index + 1) (p.after l.chars) (ctx.after l.shape) ls

def ofChars (source : List Char) : TokenStream :=
  let body := place 0 .first .empty (Lexeme.scan source)
  ⟨body, ⟨body.length, .eof, Span.ofText (Position.first.after source) [], []⟩⟩

/-- All tokens, the end-of-file token last. -/
def toList (ts : TokenStream) : List Token := ts.body ++ [ts.eof]

end TokenStream

/-- The tokens of a text, the end-of-file token last. -/
def tokenize (source : String) : List Token := (TokenStream.ofChars source.toList).toList

end Blueprint
