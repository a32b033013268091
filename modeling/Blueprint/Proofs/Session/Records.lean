import Blueprint.Session.Arena
import Blueprint.Proofs.Session.Steps
import Blueprint.Proofs.Tree.Lossless

/-!
# Building in an arena

`recordsAll` lists what an arena keeps of the nodes in a forest, in the order of their numbers. A
rule that runs from a state in front of the tokens that were not attached builds what it emits
(`Run.built`): no number is missing on the way, and in the end the node that is open has got the
new children and the new nodes stand behind the old ones (`grow`).
-/

namespace Blueprint

open Element

namespace Element

/-- An element as a child. -/
def child : Element → ChildId
  | token t => .token t.index
  | node i _ _ _ => .node i

mutual
/-- What is kept of the nodes, each before those below it; `parent` is the node above. -/
def records (parent : Option Nat) : Element → List Record
  | token _ => []
  | node i k s cs => ⟨k, parent, cs.map child, s⟩ :: recordsAll (some i) cs

def recordsAll (parent : Option Nat) : List Element → List Record
  | [] => []
  | e :: es => e.records parent ++ recordsAll parent es
end

variable {parent : Option Nat} {es fs : List Element}

@[simp] theorem recordsAll_append :
    recordsAll parent (es ++ fs) = recordsAll parent es ++ recordsAll parent fs := by
  induction es with
  | nil => rfl
  | cons e es ih => rw [List.cons_append, recordsAll, recordsAll, ih, List.append_assoc]

@[simp] theorem recordsAll_map_token (ts : List Token) :
    recordsAll parent (ts.map .token) = [] := by
  induction ts with
  | nil => rfl
  | cons t ts ih => rw [List.map_cons, recordsAll, ih]; rfl

/-- Every node has a record. -/
theorem length_recordsAll : (recordsAll parent es).length = (idsAll es).length := by
  induction es using forest_induction generalizing parent with
  | nil => rfl
  | token t es ih => exact ih
  | node i k s cs es ihc ih =>
    simp only [recordsAll, records, idsAll, ids, List.length_append, List.length_cons, ihc, ih]

/-- The children that attached elements become: all of them while a node is open, and tokens only
when none is. -/
def adopted : (opened : List Nat) → List Element → List ChildId
  | [], es => (es.filterMap asToken?).map fun t => .token t.index
  | _ :: _, es => es.map child

theorem adopted_append (opened : List Nat) :
    adopted opened (es ++ fs) = adopted opened es ++ adopted opened fs := by
  cases opened with
  | nil => rw [adopted, List.filterMap_append, List.map_append]; rfl
  | cons => exact List.map_append

end Element

/-- The records after elements were attached: to the innermost open node, or the first one. -/
def grow (opened : List Nat) (nodes : List Record) (es : List Element) : List Record :=
  nodes.modify (opened.headD 0) (.adopt (adopted opened es)) ++ recordsAll opened.head? es

section
variable {α : Type} {as bs : List α} {a : α} {f : α → α}

theorem modify_append {i : Nat} (h : i < as.length) :
    (as ++ bs).modify i f = as.modify i f ++ bs := by
  induction as generalizing i with
  | nil => cases h
  | cons a as ih =>
    cases i with
    | zero => rfl
    | succ i => exact congrArg (a :: ·) (ih (Nat.lt_of_succ_lt_succ h))

theorem modify_length_append : (as ++ a :: bs).modify as.length f = as ++ f a :: bs := by
  induction as with
  | nil => rfl
  | cons b as ih => exact congrArg (b :: ·) ih

end

/-- Each number stands at its place among the first ones. -/
theorem eq_length_of_append_eq_range {is js : List Nat} {i m : Nat}
    (h : is ++ i :: js = List.range m) : i = is.length := by
  have hlen := congrArg List.length h
  rw [List.length_append, List.length_cons, List.length_range] at hlen
  have hget := congrArg (·[is.length]?) h
  simp only [List.getElem?_append_right (Nat.le_refl _), Nat.sub_self, List.getElem?_cons_zero,
    List.getElem?_range (show is.length < m by omega), Option.some.injEq] at hget
  exact hget

/-- The numbers up to one of the first ones are the first ones. -/
theorem range_append_of_append_eq_range {is js : List Nat} {i m : Nat}
    (h : is ++ i :: js = List.range m) : List.range (i + 1) ++ js = List.range m := by
  have hi := eq_length_of_append_eq_range h
  have hlen := congrArg List.length h
  rw [List.length_append, List.length_cons, List.length_range] at hlen
  rw [List.append_cons] at h
  have htake := congrArg (List.take (is ++ [i]).length) h
  rw [List.take_left, List.take_range, List.length_append, List.length_singleton, ← hi,
    Nat.min_eq_left (by omega)] at htake
  rw [← htake, h]

section
variable {opened : List Nat} {nodes : List Record} {es fs : List Element}

theorem grow_nil : grow opened nodes [] = nodes := by
  have hadopt : Record.adopt [] = id := funext fun r => by rw [Record.adopt, List.append_nil]; rfl
  cases opened <;> simp [grow, adopted, hadopt, recordsAll]

theorem grow_append (h : opened.headD 0 < nodes.length) :
    grow opened nodes (es ++ fs) = grow opened (grow opened nodes es) fs := by
  have hadopt (cs ds : List ChildId) : Record.adopt (cs ++ ds) = Record.adopt ds ∘ Record.adopt cs :=
    funext fun r => by simp only [Record.adopt, Function.comp, List.append_assoc]
  rw [grow, grow, grow, modify_append (by rwa [List.length_modify]), List.modify_modify_eq,
    adopted_append, hadopt, recordsAll_append, List.append_assoc]

end

namespace Arena

/-- The tokens `ts` are those that were not attached, and `n` nodes were started, one at least. -/
structure Faces (a : Arena) (n : Nat) (ts : List Token) : Prop where
  tokens : ∃ front, a.tokens = front ++ ts ∧ front.length = a.attached
  index : a.tokens.map Token.index = List.range a.tokens.length
  owners : a.owners.length = a.tokens.length
  nodes : a.nodes.length = n
  opened : ∀ id ∈ a.opened, id < n
  pos : 0 < n

/-- The elements can be built, and become children and nodes behind those that are there. -/
structure Gets (a : Arena) (es : List Element) (b : Arena) : Prop where
  built : a.buildAll es = some b
  tokens : b.tokens = a.tokens
  opened : b.opened = a.opened
  nodes : b.nodes = grow a.opened a.nodes es

theorem buildAll_append (a : Arena) (es fs : List Element) :
    a.buildAll (es ++ fs) = (a.buildAll es).bind (·.buildAll fs) := by
  induction es generalizing a with
  | nil => rfl
  | cons e es ih =>
    rw [List.cons_append, buildAll, buildAll]
    cases a.build e with
    | none => rfl
    | some b => exact ih b

theorem buildAll_singleton (a : Arena) (e : Element) : a.buildAll [e] = a.build e := by
  rw [buildAll]
  cases a.build e <;> rfl

variable {a b c : Arena} {n m : Nat} {t : Token} {ts us : List Token} {es fs : List Element}

theorem push_eq {id : Nat} (child : ChildId) (h : id < a.nodes.length) :
    a.push id child = some { a with nodes := a.nodes.modify id (.adopt [child]) } := by
  rw [push, List.getElem?_eq_getElem h]
  rfl

/-- The innermost open node is closed. -/
theorem finish_eq {nodes nodes' : List Record} {ids : List Nat} {r : Record} {span : Span}
    (hopened : a.opened = nodes.length :: ids) (hnodes : a.nodes = nodes ++ r :: nodes')
    (hspan : a.spanOver r.children = some span) :
    a.finish = some { a with nodes := nodes ++ { r with span } :: nodes', opened := ids } := by
  have hget : a.nodes[nodes.length]? = some r := by
    rw [hnodes, List.getElem?_append_right (Nat.le_refl _), Nat.sub_self]
    rfl
  simp only [finish, hopened, hget, Option.bind_eq_bind, Option.bind_some, hspan]
  rw [hnodes, modify_length_append]
  rfl

namespace Gets

theorem nil : a.Gets [] a := ⟨rfl, rfl, rfl, grow_nil.symm⟩

theorem trans (H : a.Gets es b) (H' : b.Gets fs c) (h : a.owner < a.nodes.length) :
    a.Gets (es ++ fs) c where
  built := by
    rw [buildAll_append, H.built]
    exact H'.built
  tokens := H'.tokens.trans H.tokens
  opened := H'.opened.trans H.opened
  nodes := by rw [H'.nodes, H.opened, H.nodes, grow_append h]

end Gets

namespace Faces

theorem owner_lt (H : a.Faces n ts) : a.owner < a.nodes.length := by
  rw [H.nodes, owner]
  cases hopened : a.opened with
  | nil => exact H.pos
  | cons id ids => exact H.opened id (hopened ▸ .head _)

theorem drop_attached (H : a.Faces n ts) : a.tokens.drop a.attached = ts := by
  obtain ⟨front, hfront, hlen⟩ := H.tokens
  rw [hfront, ← hlen, List.drop_left]

/-- The tokens that were not attached have the numbers that follow. -/
theorem index_eq (H : a.Faces n (t :: ts)) : t.index = a.attached := by
  obtain ⟨front, hfront, hlen⟩ := H.tokens
  have hindex := H.index
  rw [hfront] at hindex
  exact (Token.index_eq_length hindex).trans hlen

theorem attached_lt (H : a.Faces n (t :: ts)) : a.attached < a.tokens.length := by
  obtain ⟨front, hfront, hlen⟩ := H.tokens
  rw [hfront, ← hlen, List.length_append]
  exact Nat.lt_add_of_pos_right (Nat.succ_pos _)

/-- At the cursor is the first token that is not trivia. -/
theorem current_eq (H : a.Faces n (us ++ t :: ts)) (hus : ∀ u ∈ us, u.isTrivia = true)
    (ht : t.isTrivia = false) : a.current = some t := by
  have hpending : (us ++ t :: ts).dropLast.takeWhile Token.isTrivia = us := by
    rw [List.dropLast_append_cons]
    cases ts with
    | nil => rw [List.dropLast_singleton, List.append_nil, List.takeWhile_eq_self_iff.2 hus]
    | cons u ts =>
      rw [List.dropLast_cons_cons, List.takeWhile_append_of_pos hus, List.takeWhile_cons, ht]
      exact List.append_nil us
  obtain ⟨front, hfront, hlen⟩ := H.tokens
  rw [current, cursor, H.drop_attached, hpending, hfront, ← hlen,
    List.getElem?_append_right (Nat.le_add_right _ _), Nat.add_sub_cancel_left,
    List.getElem?_append_right (Nat.le_refl _), Nat.sub_self]
  rfl

/-- While a token is left there is one at the cursor. -/
theorem exists_current (H : a.Faces n (t :: ts)) : ∃ u, a.current = some u := by
  have hlt : a.cursor < a.tokens.length := by
    obtain ⟨front, hfront, hlen⟩ := H.tokens
    have hle := (List.takeWhile_sublist Token.isTrivia (l := (t :: ts).dropLast)).length_le
    rw [List.length_dropLast, List.length_cons, Nat.add_sub_cancel] at hle
    rw [cursor, H.drop_attached, hfront, List.length_append, List.length_cons, hlen]
    omega
  exact ⟨_, List.getElem?_eq_getElem hlt⟩

/-- In front of a token an empty node goes to it. -/
theorem nextSpan_eq (H : a.Faces n (t :: ts)) : a.nextSpan = t.span := by
  obtain ⟨front, hfront, hlen⟩ := H.tokens
  rw [nextSpan, hfront, ← hlen, List.getElem?_append_right (Nat.le_refl _), Nat.sub_self]
  rfl

/-- When all tokens were attached an empty node goes to the last one. -/
theorem nextSpan_eq_getLast (H : a.Faces n []) (htokens : a.tokens = ts ++ [t]) :
    a.nextSpan = t.span := by
  obtain ⟨front, hfront, hlen⟩ := H.tokens
  rw [List.append_nil] at hfront
  rw [nextSpan, List.getElem?_eq_none (by rw [hfront, hlen]), Option.none_or, htokens,
    List.getLast?_concat]
  rfl

/-- A state in front of the same tokens puts nodes where the arena does. -/
theorem nodeSpan_eq {s : State} (H : a.Faces n s.unattached) (es : List Element) :
    s.nodeSpan es = (Element.spanOver es).getD (Span.startOf a.nextSpan) := by
  rw [State.nodeSpan]
  cases hs : s.unattached with
  | nil => exact absurd hs (List.append_ne_nil_of_right_ne_nil _ (List.cons_ne_nil _ _))
  | cons t ts =>
    rw [hs] at H
    rw [H.nextSpan_eq]
    rfl

/-- A token has its number. -/
theorem getElem?_index (H : a.Faces n ts) (ht : t ∈ a.tokens) : a.tokens[t.index]? = some t := by
  obtain ⟨front, back, htokens⟩ := List.append_of_mem ht
  have hindex := H.index
  rw [htokens] at hindex ⊢
  rw [Token.index_eq_length hindex, List.getElem?_append_right (Nat.le_refl _), Nat.sub_self]
  rfl

theorem token (H : a.Faces n (t :: ts)) : ∃ b, a.Gets [.token t] b ∧ b.Faces n ts := by
  obtain ⟨u, hu⟩ := H.exists_current
  have howners : t.index < a.owners.length := by
    rw [H.index_eq, H.owners]
    exact H.attached_lt
  let b : Arena := { a with
    nodes := a.nodes.modify a.owner (.adopt [.token t.index])
    owners := a.owners.set t.index (some a.owner)
    attached := max a.attached (t.index + 1) }
  have hbuild : a.build (.token t) = some b := by
    rw [build, hu, Arena.token, push_eq _ H.owner_lt]
    simp only [Option.bind_eq_bind, Option.bind_some, List.getElem?_eq_getElem howners]
    rfl
  refine ⟨b, ⟨(a.buildAll_singleton _).trans hbuild, rfl, rfl, ?_⟩, ?_⟩
  · have hadopted : adopted a.opened [.token t] = [.token t.index] := by cases a.opened <;> rfl
    rw [grow, hadopted]
    exact (List.append_nil _).symm
  · obtain ⟨front, hfront, hlen⟩ := H.tokens
    refine ⟨⟨front ++ [t], by rw [List.append_assoc]; exact hfront, ?_⟩, H.index, ?_, ?_,
      H.opened, H.pos⟩
    · change (front ++ [t]).length = max a.attached (t.index + 1)
      rw [List.length_append, hlen, H.index_eq, Nat.max_eq_right (Nat.le_succ _)]
      rfl
    · exact List.length_set.trans H.owners
    · exact (List.length_modify ..).trans H.nodes

theorem tokens_gets (H : a.Faces n (ts ++ us)) :
    ∃ b, a.Gets (ts.map .token) b ∧ b.Faces n us := by
  induction ts generalizing a with
  | nil => exact ⟨a, .nil, H⟩
  | cons t ts ih =>
    obtain ⟨b, hb, Hb⟩ := H.token
    obtain ⟨c, hc, Hc⟩ := ih Hb
    exact ⟨c, hb.trans hc H.owner_lt, Hc⟩

/-- A node that is started is the next one, and a child of the innermost open one. -/
theorem start (H : a.Faces n ts) (kind : NodeKind) (span : Span) (es : List Element) :
    ∃ b, a.start kind = some b ∧ b.Faces (n + 1) ts ∧ b.tokens = a.tokens ∧
      b.opened = n :: a.opened ∧
      b.nodes = a.nodes.modify a.owner (.adopt (adopted a.opened [.node n kind span es])) ++
        [⟨kind, a.opened.head?, [], ⟨0, 0, 0, 0⟩⟩] := by
  have hstart : a.start kind = some { a with
      nodes := a.nodes.modify a.owner (.adopt (adopted a.opened [.node n kind span es])) ++
        [⟨kind, a.opened.head?, [], ⟨0, 0, 0, 0⟩⟩]
      opened := n :: a.opened } := by
    have howner := H.owner_lt
    rw [owner] at howner ⊢
    cases hopened : a.opened with
    | nil =>
      have hgrow : grow [] a.nodes [] = a.nodes := grow_nil
      rw [grow, recordsAll, List.append_nil] at hgrow
      have hadopted : adopted [] [.node n kind span es] = adopted [] [] := rfl
      simp only [Arena.start, hopened, H.nodes, hadopted, hgrow]
    | cons parent ids =>
      rw [hopened, List.headD_cons] at howner
      simp only [Arena.start, hopened, H.nodes]
      rw [push_eq _ (by simp only [List.length_append]; omega)]
      simp only [modify_append howner]
      rfl
  refine ⟨_, hstart, ⟨H.tokens, H.index, H.owners, ?_, fun id hid => ?_, Nat.succ_pos n⟩, rfl, rfl,
    rfl⟩
  · simp only [List.length_append, List.length_modify, List.length_singleton, H.nodes]
  · rcases List.mem_cons.1 hid with rfl | hid
    · exact Nat.lt_succ_self _
    · exact Nat.lt_succ_of_lt (H.opened id hid)

/-- A child that was built has its range. -/
theorem spanOf_child (H : a.Faces m us) {nodes : List Record} {parent : Option Nat}
    (hnodes : a.nodes = nodes ++ recordsAll parent es)
    (hids : List.range nodes.length ++ idsAll es = List.range m)
    (hleaves : ∀ t ∈ leavesAll es, t ∈ a.tokens) {e : Element} (he : e ∈ es) :
    a.spanOf e.child = some e.span := by
  obtain ⟨front, back, rfl⟩ := List.append_of_mem he
  cases e with
  | token t =>
    have ht : t ∈ leavesAll (front ++ .token t :: back) := by simp [leavesAll, leaves]
    rw [child, spanOf, H.getElem?_index (hleaves t ht)]
    rfl
  | node i k s cs =>
    have hlen : (nodes ++ recordsAll parent front).length = nodes.length + (idsAll front).length := by
      rw [List.length_append, length_recordsAll]
    have hi : i = nodes.length + (idsAll front).length := by
      rw [idsAll_append, ← List.append_assoc] at hids
      rw [eq_length_of_append_eq_range hids, List.length_append, List.length_range]
    rw [child, spanOf, hnodes, recordsAll_append, recordsAll, records, hi, ← hlen,
      ← List.append_assoc, List.cons_append, List.getElem?_append_right (Nat.le_refl _),
      Nat.sub_self]
    rfl

/-- The range of a node over children that were built. -/
theorem spanOver_child (H : a.Faces m us) {nodes : List Record} {parent : Option Nat}
    (hnodes : a.nodes = nodes ++ recordsAll parent es)
    (hids : List.range nodes.length ++ idsAll es = List.range m)
    (hleaves : ∀ t ∈ leavesAll es, t ∈ a.tokens) :
    a.spanOver (es.map child) =
      some ((Element.spanOver es).getD (Span.startOf a.nextSpan)) := by
  have hspan {e : Element} (he : e ∈ es) := H.spanOf_child hnodes hids hleaves he
  rw [Arena.spanOver, Element.spanOver, List.head?_map, List.getLast?_map]
  cases hfirst : es.head? with
  | none => rfl
  | some first =>
    cases hlast : es.getLast? with
    | none => rw [List.getLast?_eq_none_iff.1 hlast] at hfirst; cases hfirst
    | some last =>
      simp only [Option.map_some, hspan (List.mem_of_head? hfirst),
        hspan (List.mem_of_getLast? hlast)]
      rfl

/-- A node can be built when what is inside it can. -/
theorem node (H : a.Faces n (t :: ts)) {kind : NodeKind} {span : Span}
    (hids : List.range (n + 1) ++ idsAll es = List.range m)
    (hleaves : ∀ u ∈ leavesAll es, u ∈ t :: ts)
    (hinner : ∀ b : Arena, b.Faces (n + 1) (t :: ts) → ∃ c, b.Gets es c ∧ c.Faces m us)
    (hspan : ∀ c : Arena, c.tokens = a.tokens → c.Faces m us →
      span = (Element.spanOver es).getD (Span.startOf c.nextSpan)) :
    ∃ b, a.Gets [.node n kind span es] b ∧ b.Faces m us := by
  obtain ⟨u, hu⟩ := H.exists_current
  obtain ⟨b, hb, Hb, htokens, hopened, hnodes⟩ := H.start kind span es
  obtain ⟨c, hc, Hc⟩ := hinner b Hb
  let nodes := a.nodes.modify a.owner (.adopt (adopted a.opened [.node n kind span es]))
  have hlen : nodes.length = n := (List.length_modify ..).trans H.nodes
  have hcnodes : c.nodes = nodes ++ ⟨kind, a.opened.head?, es.map child, ⟨0, 0, 0, 0⟩⟩ ::
      recordsAll (some n) es := by
    have howner : nodes.length = (n :: a.opened).headD 0 := hlen
    rw [hc.nodes, hopened, hnodes, grow, ← howner, modify_length_append, List.append_assoc]
    rfl
  have hcopened : c.opened = n :: a.opened := hc.opened.trans hopened
  have hspanOver : c.spanOver (es.map child) = some span := by
    rw [hspan c (hc.tokens.trans htokens) Hc]
    have hbefore : c.nodes = (nodes ++ [⟨kind, a.opened.head?, es.map child, ⟨0, 0, 0, 0⟩⟩]) ++
        recordsAll (some n) es := by
      rw [hcnodes, List.append_assoc]
      rfl
    refine Hc.spanOver_child hbefore ?_ fun v hv => ?_
    · rw [List.length_append, hlen]
      exact hids
    · -- the leaves are among the tokens that were not attached
      obtain ⟨front, hfront, -⟩ := H.tokens
      rw [hc.tokens, htokens, hfront]
      exact List.mem_append_right _ (hleaves v hv)
  have hfinish := finish_eq (hlen ▸ hcopened) hcnodes hspanOver
  refine ⟨{ c with
    nodes := nodes ++ ⟨kind, a.opened.head?, es.map child, span⟩ :: recordsAll (some n) es
    opened := a.opened }, ⟨?_, hc.tokens.trans htokens, rfl, ?_⟩, ?_⟩
  · rw [buildAll_singleton, build, hu, hb]
    simp only [Option.bind_eq_bind, Option.bind_some, hc.built, hfinish]
  · rw [grow, recordsAll, records, recordsAll, List.append_nil]
    rfl
  · refine ⟨Hc.tokens, Hc.index, Hc.owners, ?_, fun id hid => ?_, Hc.pos⟩
    · rw [← Hc.nodes, hcnodes]
      simp only [List.length_append, List.length_cons]
    · exact Hc.opened id (hcopened ▸ .tail _ hid)

end Faces

end Arena

/-- A run is built in an arena in front of its tokens, which then is in front of the tokens that
are left. -/
theorem Run.built {s t : State} {es : List Element} (hr : Run s es t) {a : Arena}
    (H : a.Faces s.nodes s.unattached) : ∃ b, a.Gets es b ∧ b.Faces t.nodes t.unattached := by
  induction hr generalizing a with
  | refl | raise => exact ⟨a, .nil, H⟩
  | trans _ _ ih₁ ih₂ =>
    obtain ⟨b, hb, Hb⟩ := ih₁ H
    obtain ⟨c, hc, Hc⟩ := ih₂ Hb
    exact ⟨c, hb.trans hc H.owner_lt, Hc⟩
  | @bump s t ts h =>
    have hload : (s.passed t ts).pending ++ (s.passed t ts).rest = ts :=
      State.pending_append_rest_load s ts
    have hes : s.pending.map .token ++ [.token t] = (s.pending ++ [t]).map Element.token := by
      rw [List.map_append]
      rfl
    rw [hes]
    refine Arena.Faces.tokens_gets ?_
    rw [State.unattached, h, List.append_assoc] at H
    rwa [State.unattached, hload, List.append_assoc]
  | @node s t es kind hr ih =>
    rw [State.unattached, List.append_assoc] at H
    obtain ⟨b, hb, Hb⟩ := H.tokens_gets
    obtain ⟨us, hus⟩ := s.exists_token_cons
    have hunattached : s.opened.unattached = s.token :: us := hus
    have hleaves := hr.leavesAll_append_unattached
    rw [hus] at Hb
    rw [hunattached] at ih hleaves
    obtain ⟨c, hc, Hc⟩ := Hb.node hr.range_nodes_append_idsAll
      (fun u hu => hleaves ▸ List.mem_append_left _ hu) (fun _ => ih) fun _ _ Hc => Hc.nodeSpan_eq es
    exact ⟨c, hb.trans hc H.owner_lt, Hc⟩

/-- A file is built from all tokens that were not attached. -/
theorem Rule.file_built (limits : Limits) (room : Nat) {s : State} (H : s.WF) {a : Arena}
    (Ha : a.Faces s.nodes s.unattached) :
    ∃ b n, a.Gets [(file limits room s).value.toElement] b ∧ b.Faces n [] ∧
      List.range s.nodes ++ (file limits room s).value.toElement.ids = List.range n ∧
      ∀ es, (file limits room s).state.nodeSpan es =
        (Element.spanOver es).getD (Span.startOf b.nextSpan) := by
  have hwf : ({ s with nodes := s.nodes + 1 } : State).WF := { H with }
  obtain ⟨es, t, hrun, hrest, hbody⟩ := exists_run_fileBody limits room hwf
  let last : State := { t with pending := [] }
  let cs := es ++ t.unattached.map .token
  have hfile : file limits room s = ⟨⟨s.nodes, .file, last.nodeSpan cs, cs⟩, [], last⟩ := by
    rw [file, hbody]
  have hleaves : leavesAll cs = s.unattached := by
    rw [leavesAll_append, leavesAll_map_token]
    exact hrun.leavesAll_append_unattached
  have hids : List.range (s.nodes + 1) ++ idsAll cs = List.range t.nodes := by
    rw [idsAll_append, idsAll_map_token, List.append_nil]
    exact hrun.range_nodes_append_idsAll
  have hlast {c : Arena} (htokens : c.tokens = a.tokens) (Hc : c.Faces t.nodes [])
      (ds : List Element) :
      last.nodeSpan ds = (Element.spanOver ds).getD (Span.startOf c.nextSpan) := by
    obtain ⟨front, hfront, -⟩ := Ha.tokens
    rw [State.unattached, ← hrun.eof_eq, ← List.append_assoc] at hfront
    rw [Hc.nextSpan_eq_getLast (htokens.trans hfront), State.nodeSpan]
    simp only [last, State.unattached, hrest, List.nil_append, List.headD_cons]
  have hinner {b : Arena} (Hb : b.Faces (s.nodes + 1) s.unattached) :
      ∃ c, b.Gets cs c ∧ c.Faces t.nodes [] := by
    obtain ⟨c, hc, Hc⟩ := hrun.built Hb
    rw [← List.append_nil t.unattached] at Hc
    obtain ⟨d, hd, Hd⟩ := Hc.tokens_gets
    exact ⟨d, hc.trans hd Hb.owner_lt, Hd⟩
  obtain ⟨b, hb, Hb⟩ : ∃ b, a.Gets [.node s.nodes .file (last.nodeSpan cs) cs] b ∧
      b.Faces t.nodes [] := by
    cases hunattached : s.unattached with
    | nil =>
      exact absurd hunattached (List.append_ne_nil_of_right_ne_nil _ (List.cons_ne_nil _ _))
    | cons u us =>
      rw [hunattached] at Ha hinner hleaves
      exact Ha.node hids (fun v hv => hleaves ▸ hv) (fun _ => hinner) fun _ htokens Hc =>
        hlast htokens Hc cs
  rw [hfile]
  refine ⟨b, t.nodes, hb, Hb, ?_, hlast hb.tokens Hb⟩
  rw [← hids, Node.toElement, ids, List.range_succ, List.append_assoc]
  rfl

end Blueprint
