import Blueprint.Token

/-! Concrete trees. An element is a token or a node over further elements; a tree keeps every token
of its text, so nothing is lost. Nodes are numbered in the order in which they were started. -/

namespace Blueprint

inductive NodeKind where
  | file
  | blueprint
  | blueprintType
  | variable
  | members
  | pair
  | fieldName
  | object
  | value
  | stringExpr
  | arrayExpr
  | array
  | elements
  | arrayElement
  | variableRefExpr
  /-- Tokens that no rule could use. -/
  | error
deriving DecidableEq, Repr

namespace NodeKind

def name : NodeKind → String
  | .file => "File"
  | .blueprint => "Blueprint"
  | .blueprintType => "BlueprintType"
  | .variable => "Variable"
  | .members => "Members"
  | .pair => "Pair"
  | .fieldName => "FieldName"
  | .object => "Object"
  | .value => "Value"
  | .stringExpr => "StringExpr"
  | .arrayExpr => "ArrayExpr"
  | .array => "Array"
  | .elements => "Elements"
  | .arrayElement => "ArrayElement"
  | .variableRefExpr => "VariableRefExpr"
  | .error => "Error"

/-- Every kind, in the order of the declaration. -/
def all : List NodeKind :=
  [.file, .blueprint, .blueprintType, .variable, .members, .pair, .fieldName, .object, .value,
    .stringExpr, .arrayExpr, .array, .elements, .arrayElement, .variableRefExpr, .error]

def ofName? (name : String) : Option NodeKind := all.find? (·.name == name)

theorem mem_all (kind : NodeKind) : kind ∈ all := by cases kind <;> decide

end NodeKind

/-- A token, or a node with its number, kind, range and children. -/
inductive Element where
  | token (t : Token)
  | node (id : Nat) (kind : NodeKind) (span : Span) (children : List Element)

namespace Element

def span : Element → Span
  | token t => t.span
  | node _ _ s _ => s

def children : Element → List Element
  | token _ => []
  | node _ _ _ cs => cs

def asToken? : Element → Option Token
  | token t => some t
  | node .. => none

def kindName : Element → String
  | token t => t.kind.name
  | node _ k _ _ => k.name

/-- The range that covers `children`: from the first to the last, or none without children. -/
def spanOver (children : List Element) : Option Span :=
  match children.head?, children.getLast? with
  | some a, some b => some (a.span.merge b.span)
  | _, _ => none

mutual
def size : Element → Nat
  | token _ => 1
  | node _ _ _ cs => sizeAll cs + 1

def sizeAll : List Element → Nat
  | [] => 0
  | e :: es => e.size + sizeAll es
end

mutual
/-- The tokens, from left to right. -/
def leaves : Element → List Token
  | token t => [t]
  | node _ _ _ cs => leavesAll cs

def leavesAll : List Element → List Token
  | [] => []
  | e :: es => e.leaves ++ leavesAll es
end

mutual
/-- The numbers of the nodes, each before those below it. -/
def ids : Element → List Nat
  | token _ => []
  | node i _ _ cs => i :: idsAll cs

def idsAll : List Element → List Nat
  | [] => []
  | e :: es => e.ids ++ idsAll es
end

mutual
/-- The tokens from left to right, each with the number of the node that it is a child of;
`owner` is the number of the node above. -/
def owned (owner : Nat) : Element → List (Token × Nat)
  | token t => [(t, owner)]
  | node i _ _ cs => ownedAll i cs

def ownedAll (owner : Nat) : List Element → List (Token × Nat)
  | [] => []
  | e :: es => e.owned owner ++ ownedAll owner es
end

mutual
/-- Every element with its depth, each before those below it; `depth` is the depth of the first. -/
def preorder (depth : Nat) : Element → List (Nat × Element)
  | token t => [(depth, token t)]
  | node i k s cs => (depth, node i k s cs) :: preorderAll (depth + 1) cs

def preorderAll (depth : Nat) : List Element → List (Nat × Element)
  | [] => []
  | e :: es => e.preorder depth ++ preorderAll depth es
end

@[simp] theorem sizeAll_append (as bs : List Element) :
    sizeAll (as ++ bs) = sizeAll as + sizeAll bs := by
  induction as with
  | nil => simp [sizeAll]
  | cons a as ih => simp [sizeAll, ih, Nat.add_assoc]

@[simp] theorem leavesAll_append (as bs : List Element) :
    leavesAll (as ++ bs) = leavesAll as ++ leavesAll bs := by
  induction as with
  | nil => simp [leavesAll]
  | cons a as ih => simp [leavesAll, ih]

@[simp] theorem idsAll_append (as bs : List Element) :
    idsAll (as ++ bs) = idsAll as ++ idsAll bs := by
  induction as with
  | nil => simp [idsAll]
  | cons a as ih => simp [idsAll, ih]

@[simp] theorem leavesAll_map_token (ts : List Token) : leavesAll (ts.map .token) = ts := by
  induction ts with
  | nil => rfl
  | cons t ts ih => rw [List.map_cons, leavesAll, leaves, ih, List.singleton_append]

@[simp] theorem idsAll_map_token (ts : List Token) : idsAll (ts.map .token) = [] := by
  induction ts with
  | nil => rfl
  | cons t ts ih => rw [List.map_cons, idsAll, ids, ih, List.nil_append]

theorem sizeAll_children_lt (e : Element) : sizeAll e.children < e.size := by
  cases e <;> simp [children, size, sizeAll]

/-- Walks the elements that wait on a stack, the top first, each with its depth. The children of an
element go on top in their order. -/
def walk : List (Nat × Element) → List (Nat × Element)
  | [] => []
  | (depth, e) :: rest => (depth, e) :: walk (e.children.map (depth + 1, ·) ++ rest)
termination_by stack => sizeAll (stack.map (·.2))
decreasing_by
  have := sizeAll_children_lt e
  simp only [List.map_append, List.map_map, sizeAll_append, List.map_cons, sizeAll]
  have h : ((fun x => x.2) ∘ fun x => (depth + 1, x)) = (id : Element → Element) := rfl
  rw [h, List.map_id]
  omega

/-- The elements below and including `e`, each with its depth, in the order of a walk. -/
def outline (e : Element) : List (Nat × Element) := walk [(0, e)]

mutual
def decEq : (a b : Element) → Decidable (a = b)
  | token t, token u => if h : t = u then isTrue (by rw [h]) else isFalse (by simpa using h)
  | token _, node .. => isFalse (by simp)
  | node .., token _ => isFalse (by simp)
  | node i k s cs, node j l u ds =>
    if h : i = j ∧ k = l ∧ s = u then
      match decEqAll cs ds with
      | isTrue hc => isTrue (by rw [h.1, h.2.1, h.2.2, hc])
      | isFalse hc => isFalse (by simp [hc])
    else isFalse (by rintro ⟨⟩; exact h ⟨rfl, rfl, rfl⟩)

def decEqAll : (as bs : List Element) → Decidable (as = bs)
  | [], [] => isTrue rfl
  | [], _ :: _ => isFalse (by simp)
  | _ :: _, [] => isFalse (by simp)
  | a :: as, b :: bs =>
    match decEq a b, decEqAll as bs with
    | isTrue h, isTrue hs => isTrue (by rw [h, hs])
    | isFalse h, _ => isFalse (by simp [h])
    | _, isFalse hs => isFalse (by simp [hs])
end

instance : DecidableEq Element := decEq

end Element

end Blueprint
