import Blueprint.Proofs.Tree.Cursors
import Blueprint.SyntaxError

/-!
# Shifts

A text keeps its tokens when other text is put in front of it, on lines of its own: they have larger
indices, offsets and lines, and the same columns. Ranges of nodes are shifted along with their
children (`Shift.spanOver_map_element`).
-/

namespace Blueprint

open Element

/-- By how much indices of tokens, offsets, lines and numbers of nodes are larger. -/
structure Shift where
  index : Nat
  offset : Nat
  line : Nat
  nodes : Nat
deriving DecidableEq

namespace Shift

/-- The shift that moves nothing. -/
def none : Shift := ⟨0, 0, 0, 0⟩

variable (d : Shift)

def position (p : Position) : Position := ⟨p.offset + d.offset, p.line + d.line, p.column⟩

def span (s : Span) : Span := ⟨s.start + d.offset, s.stop + d.offset, s.line + d.line, s.column⟩

def token (t : Token) : Token := { t with index := t.index + d.index, span := d.span t.span }

mutual
def element : Element → Element
  | .token t => .token (d.token t)
  | .node i k s cs => .node (i + d.nodes) k (d.span s) (elements cs)

def elements : List Element → List Element
  | [] => []
  | e :: es => element e :: elements es
end

def node (n : Node) : Node := ⟨n.id + d.nodes, n.kind, d.span n.span, d.elements n.children⟩

def error (e : SyntaxError) : SyntaxError := { e with span := d.span e.span }

/-! ### Tokens -/

@[simp] theorem kind_token (t : Token) : (d.token t).kind = t.kind := rfl

@[simp] theorem chars_token (t : Token) : (d.token t).chars = t.chars := rfl

@[simp] theorem index_token (t : Token) : (d.token t).index = t.index + d.index := rfl

@[simp] theorem span_token (t : Token) : (d.token t).span = d.span t.span := rfl

@[simp] theorem isTrivia_token (t : Token) : (d.token t).isTrivia = t.isTrivia := rfl

theorem position_after (p : Position) (cs : List Char) :
    (d.position p).after cs = d.position (p.after cs) := by
  induction cs generalizing p with
  | nil => rfl
  | cons c cs ih =>
    have hnext : (d.position p).next c = d.position (p.next c) := by
      simp only [Position.next, position]
      split <;> simp only [Position.mk.injEq, and_true] <;> omega
    rw [Position.after_cons, hnext, ih, Position.after_cons]

theorem ofText_position (p : Position) (cs : List Char) :
    Span.ofText (d.position p) cs = d.span (Span.ofText p cs) := by
  simp only [Span.ofText, position, span, Span.mk.injEq, and_true, true_and]
  omega

/-! ### Ranges -/

theorem startOf_span (s : Span) : (d.span s).startOf = d.span s.startOf := rfl

theorem merge_span (s t : Span) : (d.span s).merge (d.span t) = d.span (s.merge t) := by
  simp only [Span.merge, span, Span.mk.injEq, Nat.add_lt_add_iff_right, and_true]
  refine ⟨by omega, by omega, ?_⟩
  split <;> rfl

theorem span_element (e : Element) : (d.element e).span = d.span e.span := by
  cases e <;> rfl

/-! ### Elements -/

theorem elements_eq_map (es : List Element) : d.elements es = es.map d.element := by
  induction es with
  | nil => rfl
  | cons e es ih => rw [elements, ih, List.map_cons]

@[simp] theorem elements_append (es fs : List Element) :
    d.elements (es ++ fs) = d.elements es ++ d.elements fs := by
  simp only [elements_eq_map, List.map_append]

@[simp] theorem elements_map_token (ts : List Token) :
    d.elements (ts.map .token) = (ts.map d.token).map .token := by
  simp only [elements_eq_map, List.map_map]
  rfl

theorem spanOver_elements (es : List Element) :
    spanOver (d.elements es) = (spanOver es).map d.span := by
  simp only [spanOver, elements_eq_map, List.head?_map, List.getLast?_map]
  cases es.head? with
  | none => rfl
  | some a =>
    cases es.getLast? with
    | none => rfl
    | some b => simp only [Option.map_some, span_element, merge_span]

theorem filterMap_asNode?_elements (es : List Element) :
    (d.elements es).filterMap Element.asNode? = (es.filterMap Element.asNode?).map d.node := by
  induction es with
  | nil => rfl
  | cons e es ih =>
    cases e <;> simp [elements, element, List.filterMap_cons, Element.asNode?, ih, node]

/-! ### Errors -/

theorem recorded_map_error (es : List SyntaxError) :
    SyntaxError.recorded (es.map d.error) = (SyntaxError.recorded es).map d.error := by
  induction es with
  | nil => rfl
  | cons e es ih =>
    have hstart : (fun e' : SyntaxError => (d.error e').span.start == (d.error e).span.start) =
        fun e' => e'.span.start == e.span.start := by
      funext e'
      simp [error, span]
    simp only [List.map_cons, SyntaxError.recorded, ih, List.head?_map, Option.any_map,
      hstart]
    split <;> rfl

/-! ### No shift -/

@[simp] theorem span_none (s : Span) : none.span s = s := rfl

@[simp] theorem token_none (t : Token) : none.token t = t := rfl

@[simp] theorem error_none (e : SyntaxError) : none.error e = e := rfl

@[simp] theorem elements_none (es : List Element) : none.elements es = es := by
  induction es using forest_induction with
  | nil => rfl
  | token t es ih => simp only [elements, element, token_none, ih]
  | node i k s cs es ihc ihe => simp only [elements, element, span_none, ihc, ihe]; rfl

end Shift

end Blueprint
