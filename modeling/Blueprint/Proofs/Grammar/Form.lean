import Mathlib.Computability.RegularExpressions
import Blueprint.Proofs.Tree.Symbols

/-!
# What the children of a node can be

Two tables of patterns over the words of nodes. `NodeKind.form` is for every tree, after whatever
errors; `NodeKind.production` is the grammar.
-/

namespace Blueprint

/-- A pattern for words. -/
abbrev Form := RegularExpression Symbol

namespace Form

def token (kind : TokenKind) : Form := .char (.token kind)

def node (kind : NodeKind) : Form := .char (.node kind)

def optional (p : Form) : Form := 1 + p

/-- Any number of `p`. -/
def many (p : Form) : Form := .star p

/-- One `p` or more. -/
def oneOrMore (p : Form) : Form := p * many p

/-- Items with commas between them, and perhaps one after the last. -/
def list (item : Form) : Form :=
  item * many (token .separator * item) * optional (token .separator)

/-- Any token that is neither trivia nor the end of the file. -/
def anyToken : Form := ((TokenKind.all.filter fun k => !k.isTrivia && k != .eof).map token).sum

end Form

open Form in
/-- What the children of a node look like in every tree. -/
def NodeKind.form : NodeKind → Form
  | .file => many (node .blueprint + node .variable + node .error) * token .eof
  | .blueprint =>
    node .blueprintType * token .objectStart * optional (node .members) *
      optional (token .objectEnd)
  | .blueprintType => token .blueprintTypeName
  | .variable =>
    token .variableName * optional ((token .equals + token .plusEquals) * optional (node .value))
  | .members => oneOrMore (node .pair * optional (token .separator + node .error) + node .error)
  | .pair =>
    node .fieldName * token .equals * node .value +
      node .fieldName * optional (token .equals) * optional (node .error)
  | .fieldName => token .fieldName
  | .object => token .objectStart * optional (node .members) * optional (token .objectEnd)
  | .value =>
    node .stringExpr + node .arrayExpr + node .object + node .variableRefExpr + token .bool +
      token .number + node .error
  | .stringExpr => token .string * many (token .plus * token .string)
  | .arrayExpr =>
    (node .array + node .error) * many (token .plus * (node .array + node .error))
  | .array => token .arrayStart * optional (node .elements) * optional (token .arrayEnd)
  | .elements =>
    many (node .arrayElement * token .separator) *
      (optional (node .arrayElement) * optional (node .error))
  | .arrayElement =>
    token .string + token .bool + token .number + token .variableName + token .link
  | .variableRefExpr =>
    token .variableValueRef * optional (token .plus * (node .value + node .error))
  | .error => oneOrMore anyToken

open Form in
/-- The grammar. A module type and a field name are their tokens here, and nothing is an error. -/
def NodeKind.production : NodeKind → Form
  | .file => many (node .blueprint + node .variable)
  | .blueprint =>
    token .blueprintTypeName * token .objectStart * optional (node .members) * token .objectEnd
  | .variable => token .variableName * (token .equals + token .plusEquals) * node .value
  | .members => list (node .pair)
  | .pair => token .fieldName * token .equals * node .value
  | .object => token .objectStart * optional (node .members) * token .objectEnd
  | .value =>
    node .stringExpr + node .arrayExpr + node .object + token .bool + token .number +
      node .variableRefExpr
  | .stringExpr => token .string * many (token .plus * token .string)
  | .arrayExpr => node .array * many (token .plus * node .array)
  | .array => token .arrayStart * optional (node .elements) * token .arrayEnd
  | .elements => list (node .arrayElement)
  | .arrayElement =>
    token .string + token .bool + token .number + token .variableName + token .link
  | .variableRefExpr => token .variableValueRef * optional (token .plus * node .value)
  | .blueprintType | .fieldName | .error => 0

namespace Form

open scoped Computability

variable {p q : Form} {v w : List Symbol}

theorem mem_optional : w ∈ (optional p).matches' ↔ w = [] ∨ w ∈ p.matches' := Iff.rfl

theorem append_mem_mul (hv : v ∈ p.matches') (hw : w ∈ q.matches') : v ++ w ∈ (p * q).matches' :=
  Language.append_mem_mul hv hw

theorem nil_mem_many : [] ∈ (many p).matches' := Language.nil_mem_kstar _

/-- The first of many, and the others. -/
theorem mem_many_iff :
    w ∈ (many p).matches' ↔ w = [] ∨ ∃ a ∈ p.matches', ∃ b ∈ (many p).matches', a ++ b = w := by
  change w ∈ p.matches'∗ ↔ w = [] ∨ ∃ a ∈ p.matches', ∃ b ∈ p.matches'∗, a ++ b = w
  conv_lhs => rw [← Language.one_add_self_mul_kstar_eq_kstar]
  rfl

theorem append_mem_many (hv : v ∈ p.matches') (hw : w ∈ (many p).matches') :
    v ++ w ∈ (many p).matches' := mem_many_iff.2 (.inr ⟨v, hv, w, hw, rfl⟩)

theorem many_append_mem_many (hv : v ∈ (many p).matches') (hw : w ∈ (many p).matches') :
    v ++ w ∈ (many p).matches' := by
  have h := Language.append_mem_mul hv hw
  rwa [many, RegularExpression.matches'_star, kstar_mul_kstar] at h

theorem mem_oneOrMore_iff : w ∈ (oneOrMore p).matches' ↔
    ∃ a ∈ p.matches', ∃ b ∈ (many p).matches', a ++ b = w := Iff.rfl

theorem append_mem_many_mul (hv : v ∈ p.matches') (hw : w ∈ (many p * q).matches') :
    v ++ w ∈ (many p * q).matches' := by
  obtain ⟨a, ha, b, hb, rfl⟩ := hw
  exact ⟨v ++ a, append_mem_many hv ha, b, hb, List.append_assoc _ _ _⟩

/-- After the first item of a list comes nothing, or a comma and perhaps a list. -/
theorem matches'_list (item : Form) :
    (list item).matches' = (item + item * token .separator * optional (list item)).matches' := by
  simp only [list, many, optional, RegularExpression.matches'_add, RegularExpression.matches'_mul,
    RegularExpression.matches'_star, RegularExpression.matches'_epsilon]
  generalize item.matches' = x, (token .separator).matches' = c
  calc x * (c * x)∗ * (1 + c)
      = x * (1 + c * x * (c * x)∗) * (1 + c) := by rw [Language.one_add_self_mul_kstar_eq_kstar]
    _ = x + x * c * (1 + x * (c * x)∗ * (1 + c)) := by
        simp only [mul_add, add_mul, mul_one, mul_assoc, add_assoc, add_left_comm]

theorem mem_list_iff {item : NodeKind} : w ∈ (list (node item)).matches' ↔
    w = [.node item] ∨
      ∃ v ∈ (optional (list (node item))).matches', w = .node item :: .token .separator :: v := by
  rw [matches'_list]
  refine or_congr Iff.rfl ⟨?_, ?_⟩
  · rintro ⟨_, ⟨_, rfl, _, rfl, rfl⟩, v, hv, rfl⟩
    exact ⟨v, hv, rfl⟩
  · rintro ⟨v, hv, rfl⟩
    exact ⟨_, ⟨_, rfl, _, rfl, rfl⟩, v, hv, rfl⟩

theorem token_mem_anyToken {k : TokenKind} (h : k ≠ .eof) (h' : k.isTrivia = false) :
    [.token k] ∈ anyToken.matches' := by
  cases k with
  | eof => exact absurd rfl h
  | comment | whitespace => cases h'
  | _ => decide

end Form

end Blueprint
