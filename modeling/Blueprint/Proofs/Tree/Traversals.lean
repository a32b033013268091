import Blueprint.Command.Show
import Blueprint.Proofs.Text.Escaped
import Blueprint.Proofs.Visitor

/-!
# Walks over a tree

The outline of a tree, as text and as JSON, the nodes below its root and the calls of a visitor that
handles no kind on its own are read off one listing (`Tree.traversals_of_leaves`), and the texts of
its tokens make up the text of the tree.
-/

namespace Blueprint

open Cursor Element

/-! ## What is said of an element -/

namespace Element

/-- The row of an element: how deep it is, its kind and its range, and the text of a token. -/
structure RowOf (depth : Nat) (e : Element) (row : Json) : Prop where
  depth : row.member? "depth" = some (.number depth 0)
  kind : row.member? "kind" = some (.string e.kindName)
  start : row.member? "start" = some (.number e.span.start 0)
  stop : row.member? "end" = some (.number e.span.stop 0)
  text : row.member? "text" = e.asToken?.map fun t => .string t.text

/-- What stands at the end of the line of an element: the text of a token between quotes. -/
inductive EndsLine : Element → String → Prop
  | token {t : Token} {text : List Char} :
    Text.Escaped Text.Visible.letters Text.Visible.IsNumber text t.chars →
      EndsLine (.token t) (String.ofList (' ' :: '"' :: (text ++ ['"'])))
  | node {i : Nat} {k : NodeKind} {s : Span} {cs : List Element} : EndsLine (.node i k s cs) ""

/-- The line of an element: two blanks for each node above it, its kind and its range. -/
structure LineOf (depth : Nat) (e : Element) (line : String) : Prop where
  eq : ∃ rest, e.EndsLine rest ∧ line = String.join (List.replicate depth "  ") ++ e.kindName ++
    "@" ++ toString e.span.start ++ ".." ++ toString e.span.stop ++ rest
  newline_not_mem : '\n' ∉ line.toList

theorem rowOf_rowJson (depth : Nat) (e : Element) : RowOf depth e (e.rowJson depth) := by
  cases e <;> exact ⟨rfl, rfl, rfl, rfl, rfl⟩

theorem newline_not_mem_kindName (e : Element) : '\n' ∉ e.kindName.toList := by
  cases e with
  | token t =>
    rw [kindName]
    cases t.kind <;> decide
  | node i k s cs =>
    rw [kindName]
    cases k <;> decide

theorem exists_describe_eq (e : Element) : ∃ rest, e.EndsLine rest ∧ '\n' ∉ rest.toList ∧
    e.describe = e.kindName ++ "@" ++ toString e.span.start ++ ".." ++ toString e.span.stop ++
      rest := by
  cases e with
  | token t =>
    obtain ⟨text, htext, H⟩ := Text.Visible.escaped_quote t.chars
    have hline := Text.Visible.newline_not_mem_quote t.chars
    refine ⟨_, .token H, ?_, ?_⟩
    · rw [htext] at hline
      simpa using hline
    · apply String.toList_injective
      simp [describe, htext, kindName, span]
  | node i k s cs => exact ⟨"", .node, by simp, by simp [describe, Node.describe, kindName, span]⟩

theorem lineOf_describe (depth : Nat) (e : Element) :
    LineOf depth e (String.join (List.replicate depth "  ") ++ e.describe) := by
  obtain ⟨rest, Hrest, hrest, heq⟩ := e.exists_describe_eq
  have hdigits (n : Nat) : '\n' ∉ Nat.toDigits 10 n :=
    (Text.numeral_toDigits (by decide) n).newline_not_mem
  constructor
  case eq => exact ⟨rest, Hrest, by rw [heq]; simp only [String.append_assoc]⟩
  case newline_not_mem =>
    rw [heq]
    simp [newline_not_mem_kindName, hdigits, hrest]

end Element

theorem NodeKind.ofName?_name (kind : NodeKind) : ofName? kind.name = some kind := by
  cases kind <;> decide

theorem NodeKind.name_inj {k l : NodeKind} (h : k.name = l.name) : k = l :=
  Option.some.inj (k.ofName?_name.symm.trans (h ▸ l.ofName?_name))

theorem TokenKind.ofName?_name (kind : TokenKind) : ofName? kind.name = some kind := by
  cases kind <;> decide

theorem TokenKind.name_inj {k l : TokenKind} (h : k.name = l.name) : k = l :=
  Option.some.inj (k.ofName?_name.symm.trans (h ▸ l.ofName?_name))

/-! ## Walks -/

/-- All walks over a tree go along one listing, which has every element in front of those below it.
The outline as text has one line for each element, and the one as JSON one row; the names in them
tell kinds apart. An element is as deep as there are nodes above it: the ancestors of a node, or the
owner of a token and its ancestors. The tokens put together are the text. -/
structure Tree.Traversals (tree : Tree) : Prop where
  outline : tree.root.toElement.outline =
    tree.cursor.listing.map fun v => (v.path.length, v.child.toElement)
  dump : ∃ lines : List String, tree.dump = String.join (lines.map (· ++ "\n")) ∧
    List.Forall₂ (fun v => v.child.toElement.LineOf v.path.length) tree.cursor.listing lines
  rows : List.Forall₂ (fun v => v.child.toElement.RowOf v.path.length) tree.cursor.listing tree.rows
  nodeNames : ∀ n m : Node, n.toElement.kindName = m.toElement.kindName → n.kind = m.kind
  tokenNames : ∀ t u : Token, (token t).kindName = (token u).kindName → t.kind = u.kind
  preorder : tree.cursor.listing.map (fun v => (v.path.length, v.child.toElement)) =
    tree.root.toElement.preorder 0
  visits : ∀ {σ : Type} (act : Child → σ → σ) (s : σ),
    (Visitor.overriding (fun _ => none) fun e => act e.child).walk tree.cursor s =
      tree.cursor.listing.foldl (fun s v => act v.child s) s
  descendants : tree.cursor.descendants = tree.cursor.listing.filterMap (·.child.node?)
  ancestors : ∀ v ∈ tree.cursor.listing, ∀ c, v.child = .node c → v.path = c.ancestors
  owners : ∀ v ∈ tree.cursor.listing, ∀ t, v.child = .token t →
    ∃ c ∈ tree.cursors, tree.ownerOf? t.index = some c.id ∧ v.path = c :: c.ancestors
  text : String.join ((tree.cursor.listing.filterMap (·.child.token?)).map Token.text) = tree.source

namespace Tree

variable {tree : Tree}

theorem descendants_cursor : tree.cursor.descendants = tree.cursors := descendants_eq tree.cursor

/-- A tree that has the tokens of its text for leaves is walked in one way. -/
theorem traversals_of_leaves (hleaves : tree.root.toElement.leaves = tree.tokens)
    (hindices : (tree.tokens.map Token.index).Nodup)
    (htext : tree.tokens.flatMap Token.chars = tree.source.toList) : tree.Traversals := by
  have houtline : tree.root.toElement.outline =
      tree.cursor.listing.map fun v => (v.path.length, v.child.toElement) :=
    outline_eq_listing tree.cursor
  have htokens : tree.cursor.listing.filterMap (·.child.token?) = tree.tokens :=
    (descendantTokens_eq_listing tree.cursor).symm.trans hleaves
  constructor
  case outline => exact houtline
  case dump =>
    refine ⟨tree.cursor.listing.map fun v =>
      String.join (List.replicate v.path.length "  ") ++ v.child.toElement.describe, ?_, ?_⟩
    · rw [dump, houtline, List.map_map, List.map_map]
      rfl
    · exact List.forall₂_map_right_iff.2 (List.forall₂_same.2 fun v _ => lineOf_describe _ _)
  case rows =>
    rw [rows, houtline, List.map_map]
    exact List.forall₂_map_right_iff.2 (List.forall₂_same.2 fun v _ => rowOf_rowJson _ _)
  case nodeNames => exact fun _ _ => NodeKind.name_inj
  case tokenNames => exact fun _ _ => TokenKind.name_inj
  case preorder => rw [← houtline, outline_eq_preorder]
  case visits =>
    intro σ act s
    have hreached (v : Visit) : Visitor.reached (fun _ => none) v = true :=
      List.all_eq_true.2 fun _ _ => rfl
    rw [Visitor.walk_overriding, List.filter_eq_self.2 fun v _ => hreached v, List.foldl_map]
    simp only [Visitor.child_event]
  case descendants => exact descendants_eq_listing tree.cursor
  case ancestors =>
    intro v hv c hchild
    exact ((ancestors_eq_path_append hv hchild).trans (List.append_nil _)).symm
  case owners =>
    intro v hv t hchild
    obtain ⟨c, hc, htc, hpath⟩ := exists_owner_of_mem_listing hv hchild
    rw [descendants_cursor] at hc
    exact ⟨c, hc, ownerOf?_of_mem_childTokens hleaves hindices hc htc,
      (hpath.trans (List.append_nil _)).symm⟩
  case text =>
    rw [htokens, ← String.toList_inj, String.toList_join, List.flatMap_map, ← htext]
    simp only [Token.text, String.toList_ofList]

end Tree

/-- Whatever the limits are, all walks over the tree of a text go along one listing. -/
theorem parse_traversals (source : String) (limits : Limits) :
    (parse source limits).tree.Traversals :=
  Tree.traversals_of_leaves (leaves_parse source limits) (nodup_index_tokenize source)
    (flatMap_tokenize source)

/-- The end of the file has a line as well, with no text. -/
example : (parse "x =1" .standard).tree.dump =
    "File@0..4\n  Variable@0..4\n    VariableName@0..1 \"x\"\n    Whitespace@1..2 \" \"\n" ++
      "    Equals@2..3 \"=\"\n    Value@3..4\n      Number@3..4 \"1\"\n  Eof@4..4 \"\"\n" := by
  decide +kernel

end Blueprint
