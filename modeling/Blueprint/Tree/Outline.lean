import Blueprint.Tree.Cursor
import Blueprint.Text.Visible

/-! Trees in text form: an indented outline with one element to a line, and a nested form in
parentheses. -/

namespace Blueprint

def Node.describe (n : Node) : String :=
  n.kind.name ++ "@" ++ toString n.span.start ++ ".." ++ toString n.span.stop

/-- An element as its kind and range, a token also with its text. -/
def Element.describe : Element → String
  | .token t =>
    t.kind.name ++ "@" ++ toString t.span.start ++ ".." ++ toString t.span.stop ++ " " ++
      Text.Visible.quote t.chars
  | .node i k s cs => Node.describe ⟨i, k, s, cs⟩

mutual
/-- An element in nested form: the kind of a token, and a node as its kind and its children in
parentheses. -/
def Element.nested : Element → String
  | .token t => t.kind.name
  | .node _ k _ cs => "(" ++ k.name ++ Element.nestedAll cs ++ ")"

/-- Elements in nested form, with a blank before each. -/
def Element.nestedAll : List Element → String
  | [] => ""
  | e :: es => " " ++ e.nested ++ Element.nestedAll es
end

/-- The outline of a tree, one element to a line, indented by its depth. -/
def Tree.dump (tree : Tree) : String :=
  String.join (tree.root.toElement.outline.map fun (depth, e) =>
    String.join (List.replicate depth "  ") ++ e.describe ++ "\n")

end Blueprint
