import Blueprint.Tree.Cursor
import Blueprint.Text.Quoted

/-! Typed views of a tree. `View kind` is a node of that kind at its place, and each kind has
questions of its own. They are answered for any tree, also one of a damaged file: what is missing
is `none` or an empty list. -/

namespace Blueprint

/-- A node of a given kind at its place in a tree. -/
structure View (kind : NodeKind) where
  cursor : Cursor
  kind_eq : cursor.kind = kind
deriving DecidableEq

abbrev FileView := View .file
abbrev ModuleView := View .blueprint
abbrev ModuleTypeView := View .blueprintType
abbrev VariableView := View .variable
abbrev MembersView := View .members
abbrev PairView := View .pair
abbrev FieldNameView := View .fieldName
abbrev ObjectView := View .object
abbrev ValueView := View .value
abbrev StringView := View .stringExpr
abbrev ArrayExprView := View .arrayExpr
abbrev ArrayView := View .array
abbrev ElementsView := View .elements
abbrev ElementView := View .arrayElement
abbrev ReferenceView := View .variableRefExpr
abbrev ErrorView := View .error

/-- The cursor as a view of a kind, when its node has that kind. -/
def Cursor.as? (c : Cursor) (kind : NodeKind) : Option (View kind) :=
  if h : c.kind = kind then some ⟨c, h⟩ else none

namespace View

variable {kind : NodeKind}

def span (v : View kind) : Span := v.cursor.span

def child? (v : View kind) (k : NodeKind) : Option (View k) :=
  v.cursor.childNodes.findSome? (·.as? k)

def children (v : View kind) (k : NodeKind) : List (View k) :=
  v.cursor.childNodes.filterMap (·.as? k)

def token? (v : View kind) (k : TokenKind) : Option Token := v.cursor.firstToken? k

end View

/-! ## Object bodies -/

namespace FieldNameView

def token? (v : FieldNameView) : Option Token := View.token? v .fieldName

/-- The name, which is empty when it is missing. -/
def name (v : FieldNameView) : String := ((token? v).map Token.text).getD ""

def pair? (v : FieldNameView) : Option PairView := v.cursor.parent?.bind (·.as? .pair)

/-- The module in whose body the field stands directly. -/
def module? (v : FieldNameView) : Option ModuleView := do
  let members ← v.cursor.ancestors.find? (·.kind == .members)
  (← members.parent?).as? .blueprint

/-- The field stands directly in the body of a module, and not in an object inside it. -/
def isModuleField (v : FieldNameView) : Bool := (module? v).isSome

end FieldNameView

namespace PairView

def fieldName? (v : PairView) : Option FieldNameView := View.child? v .fieldName

def name? (v : PairView) : Option String := (fieldName? v).map FieldNameView.name

def value? (v : PairView) : Option ValueView := View.child? v .value

end PairView

namespace MembersView

def pairs (v : MembersView) : List PairView := View.children v .pair

end MembersView

namespace ObjectView

def members? (v : ObjectView) : Option MembersView := View.child? v .members

def pairs (v : ObjectView) : List PairView := ((members? v).map MembersView.pairs).getD []

end ObjectView

/-! ## Values -/

namespace StringView

def parts (v : StringView) : List Token := v.cursor.childTokens.filter (·.kind == .string)

def value (v : StringView) : String := String.join ((parts v).map fun t => unquote t.text)

end StringView

namespace ElementView

def token? (v : ElementView) : Option Token := v.cursor.significantTokens.head?

def tokenKind? (v : ElementView) : Option TokenKind := (token? v).map Token.kind

/-- The value of a string or link, and any other token as it is written. -/
def literal? (v : ElementView) : Option String :=
  (token? v).map fun t =>
    if t.kind = .string ∨ t.kind = .link then unquote t.text else t.text

/-- The name of the module that a link points to. -/
def linkTarget? (v : ElementView) : Option String :=
  ((token? v).filter (·.kind == .link)).map fun t =>
    String.ofList ((Text.Quoted.decode t.chars).dropWhile (· == ':'))

end ElementView

namespace ElementsView

def elements (v : ElementsView) : List ElementView := View.children v .arrayElement

end ElementsView

namespace ArrayView

def elements (v : ArrayView) : List ElementView :=
  ((View.child? v .elements).map ElementsView.elements).getD []

end ArrayView

namespace ArrayExprView

def arrays (v : ArrayExprView) : List ArrayView := View.children v .array

def elements (v : ArrayExprView) : List ElementView := (arrays v).flatMap ArrayView.elements

end ArrayExprView

namespace ReferenceView

def token? (v : ReferenceView) : Option Token := View.token? v .variableValueRef

def name? (v : ReferenceView) : Option String := (token? v).map Token.text

def tail? (v : ReferenceView) : Option ValueView := View.child? v .value

end ReferenceView

namespace ErrorView

def skipped (v : ErrorView) : List Token := v.cursor.descendantTokens.filter (!·.isTrivia)

end ErrorView

inductive ValueForm where
  | string (v : StringView)
  | array (v : ArrayExprView)
  | object (v : ObjectView)
  | bool (t : Token)
  | number (t : Token)
  | reference (v : ReferenceView)
deriving DecidableEq

/-- The form that a child gives to a value. -/
def ValueForm.ofChild? : Cursor.Child → Option ValueForm
  | .token t =>
    match t.kind with
    | .bool => some (.bool t)
    | .number => some (.number t)
    | _ => none
  | .node c =>
    (c.as? .stringExpr).map .string <|> (c.as? .arrayExpr).map .array <|>
      (c.as? .object).map .object <|> (c.as? .variableRefExpr).map .reference

/-- The whole number that decimal digits with an optional sign spell. -/
def integerOfChars : List Char → Int
  | '-' :: cs => -(Nat.ofDigitChars 10 cs 0 : Nat)
  | cs => (Nat.ofDigitChars 10 cs 0 : Nat)

namespace ValueView

/-- The form of the value; a value that was lost to an error has none. -/
def form? (v : ValueView) : Option ValueForm := v.cursor.children.findSome? ValueForm.ofChild?

def asBool? (v : ValueView) : Option Bool :=
  match form? v with
  | some (.bool t) => some (t.text == "true")
  | _ => none

/-- The number, when it fits into 64 bits with a sign. -/
def asNumber? (v : ValueView) : Option Int :=
  match form? v with
  | some (.number t) =>
    let n := integerOfChars t.chars
    if -0x8000000000000000 ≤ n ∧ n < 0x8000000000000000 then some n else none
  | _ => none

def asString? (v : ValueView) : Option String :=
  match form? v with
  | some (.string s) => some s.value
  | _ => none

end ValueView

/-! ## Items -/

namespace ModuleTypeView

def token? (v : ModuleTypeView) : Option Token := View.token? v .blueprintTypeName

def name? (v : ModuleTypeView) : Option String := (token? v).map Token.text

end ModuleTypeView

namespace ModuleView

def moduleType? (v : ModuleView) : Option ModuleTypeView := View.child? v .blueprintType

def typeName? (v : ModuleView) : Option String := (moduleType? v).bind ModuleTypeView.name?

def members? (v : ModuleView) : Option MembersView := View.child? v .members

def pairs (v : ModuleView) : List PairView := ((members? v).map MembersView.pairs).getD []

/-- The first pair of the body with a given name. -/
def pair? (v : ModuleView) (field : String) : Option PairView :=
  (pairs v).find? (·.name? == some field)

/-- The value of the field `name`, when it is a string. -/
def name? (v : ModuleView) : Option String := do
  match ← (← (← pair? v "name").value?).form? with
  | .string s => some s.value
  | _ => none

end ModuleView

/-- How a variable is defined: anew, or as an addition to what it was. -/
inductive Assignment where
  | assign
  | append
deriving DecidableEq, Repr

namespace Assignment

def symbol : Assignment → String
  | .assign => "="
  | .append => "+="

def ofToken? (t : Token) : Option Assignment :=
  match t.kind with
  | .equals => some .assign
  | .plusEquals => some .append
  | _ => none

end Assignment

namespace VariableView

def token? (v : VariableView) : Option Token := View.token? v .variableName

def name? (v : VariableView) : Option String := (token? v).map Token.text

def operator? (v : VariableView) : Option Assignment :=
  v.cursor.significantTokens.findSome? Assignment.ofToken?

def value? (v : VariableView) : Option ValueView := View.child? v .value

end VariableView

namespace FileView

/-- The modules and variables, in order. -/
def items (v : FileView) : List Cursor :=
  v.cursor.childNodes.filter fun c => c.kind == .blueprint || c.kind == .variable

def modules (v : FileView) : List ModuleView := View.children v .blueprint

def assignments (v : FileView) : List VariableView := View.children v .variable

def moduleNamed? (v : FileView) (name : String) : Option ModuleView :=
  (modules v).find? (·.name? == some name)

end FileView

/-! ## The way from a pair up to its module -/

namespace PairView

/-- The type of the module above, after the names of the pairs that are passed on the way up; `none`
when there is no module above. -/
def pathUp? : List Cursor → Option (List String)
  | [] => none
  | c :: cs =>
    match c.as? .blueprint with
    | some m => some (ModuleView.typeName? m).toList
    | none => (pathUp? cs).map fun path =>
      ((c.as? .pair).bind PairView.name?).toList ++ path

/-- The type of the module that the pair is in and the names of the pairs around it, from the outside
in. It is empty when the pair is in no module. -/
def fieldPath (v : PairView) : List String := ((pathUp? v.cursor.ancestors).getD []).reverse

end PairView

/-- The root of a tree as a file. -/
def Tree.file? (tree : Tree) : Option FileView := tree.cursor.as? .file

end Blueprint
