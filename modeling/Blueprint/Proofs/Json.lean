import Blueprint.Json
import Blueprint.Proofs.Text.Escaped

/-!
# JSON texts

What it means that characters are a JSON text of a value (`Json.TextOf`), with white space wherever
the format allows it. The text that is written for a value, one entry to a line, is one of it
(`Json.textOf_pretty`).
-/

namespace Blueprint.Json

open Text

/-- White space between the parts of a text. -/
def Blank (cs : List Char) : Prop := ∀ c ∈ cs, c ∈ [' ', '\t', '\n', '\r']

/-- The letters that stand for a character behind a backslash. -/
def letters : List (Char × Char) :=
  [('"', '"'), ('\\', '\\'), ('/', '/'), ('b', '\x08'), ('f', '\x0c'), ('n', '\n'), ('r', '\r'),
    ('t', '\t')]

/-- Four hexadecimal digits. -/
structure IsNumber (ds : List Char) (n : Nat) : Prop where
  digits : Numeral 16 ds n
  length_eq : ds.length = 4

/-- A string between quotes. -/
inductive StringOf (s : String) : List Char → Prop
  | mk {text : List Char} : Escaped letters IsNumber text s.toList →
    StringOf s ('"' :: (text ++ ['"']))

/-- Digits in front of a decimal point: at least one, and a zero only when it is the only one. -/
def Whole (ds : List Char) : Prop := ds ≠ [] ∧ (ds.head? = some '0' → ds = ['0'])

def sign (m : Int) : List Char := if m < 0 then ['-'] else []

/-- A number `m * 10 ^ (-e)`, with `e` digits behind the point if there is one. -/
inductive NumberOf (m : Int) : (e : Nat) → List Char → Prop
  | whole {ds : List Char} : Whole ds → Numeral 10 ds m.natAbs → NumberOf m 0 (sign m ++ ds)
  | decimal {e : Nat} {ds fs : List Char} : Whole ds → fs.length = e + 1 →
    Numeral 10 (ds ++ fs) m.natAbs → NumberOf m (e + 1) (sign m ++ (ds ++ '.' :: fs))

/-- Texts with a comma between each two, and white space around each. -/
inductive Separated {α : Type} (R : α → List Char → Prop) : List α → List Char → Prop
  | nil {ws : List Char} : Blank ws → Separated R [] ws
  | last {a : α} {ws text ws' : List Char} : Blank ws → R a text → Blank ws' →
    Separated R [a] (ws ++ (text ++ ws'))
  | cons {a b : α} {as : List α} {ws text ws' texts : List Char} : Blank ws → R a text → Blank ws' →
    Separated R (b :: as) texts → Separated R (a :: b :: as) (ws ++ (text ++ (ws' ++ ',' :: texts)))

mutual
/-- The characters are a text of the value. -/
inductive TextOf : Json → List Char → Prop
  | null : TextOf .null ['n', 'u', 'l', 'l']
  | true : TextOf (.bool true) ['t', 'r', 'u', 'e']
  | false : TextOf (.bool false) ['f', 'a', 'l', 's', 'e']
  | number {m : Int} {e : Nat} {text : List Char} : NumberOf m e text → TextOf (.number m e) text
  | string {s : String} {text : List Char} : StringOf s text → TextOf (.string s) text
  | array {vs : List Json} {text : List Char} : Separated TextOf vs text →
    TextOf (.array vs) ('[' :: (text ++ [']']))
  | object {ms : List (String × Json)} {text : List Char} : Separated MemberOf ms text →
    TextOf (.object ms) ('\x7b' :: (text ++ ['\x7d']))

/-- The characters are a text of the member: its key, a colon and its value. -/
inductive MemberOf : String × Json → List Char → Prop
  | mk {k : String} {v : Json} {key ws ws' text : List Char} : StringOf k key → Blank ws →
    Blank ws' → TextOf v text → MemberOf (k, v) (key ++ (ws ++ ':' :: (ws' ++ text)))
end

/-! ### What is written -/

theorem blank_nil : Blank [] := nofun

theorem blank_newline (level : Nat) : Blank (newline level).toList := by
  intro c hc
  rw [newline, String.toList_append, String.toList_ofList, String.toList_ofList] at hc
  rcases List.mem_append.1 hc with hc | hc
  · have hnewline : c = '\n' := List.mem_singleton.1 hc
    simp [hnewline]
  · simp [List.eq_of_mem_replicate hc]

theorem escapedChar_escape (c : Char) : EscapedChar letters IsNumber (escape c) c := by
  unfold escape
  split
  case h_8 hquote hback _ _ _ _ _ =>
    split
    · next hlt =>
      have hhigh : c.toNat / 16 < 16 := by omega
      have hlow : c.toNat % 16 < 16 := Nat.mod_lt _ (by decide)
      have hzero : Numeral 16 ['0', '0'] 0 := (Numeral.digit (d := 0) (by decide)).zero_cons
      have hdigits := (hzero.snoc hhigh).snoc hlow
      rw [Nat.mul_zero, Nat.zero_add, Nat.div_add_mod] at hdigits
      exact .number ⟨hdigits, rfl⟩
    · next hge => exact .plain (Nat.not_lt.1 hge) hquote hback
  all_goals exact .letter (by decide)

theorem stringOf_quote (s : String) : StringOf s (quote s).toList := by
  rw [quote, String.toList_ofList]
  exact .mk (escaped_flatMap escapedChar_escape s.toList)

theorem whole_toDigits (n : Nat) : Whole (Nat.toDigits 10 n) := by
  refine ⟨Nat.toDigits_ne_nil, fun hhead => ?_⟩
  by_cases hn : n = 0
  · rw [hn]
    rfl
  · exact absurd hhead (head?_toDigits_ne hn)

/-- Where zeros make up for digits that are missing, so that at least one stands in front of the last
`e`, the ones in front are a whole number. -/
theorem whole_take_padded {n e : Nat} (he : e ≠ 0) {padded : List Char} (hpadded : padded =
      List.replicate (e + 1 - (Nat.toDigits 10 n).length) '0' ++ Nat.toDigits 10 n) :
    Whole (padded.take (padded.length - e)) := by
  have hlength : padded.length =
      e + 1 - (Nat.toDigits 10 n).length + (Nat.toDigits 10 n).length := by
    rw [hpadded, List.length_append, List.length_replicate]
  by_cases hle : e + 1 ≤ (Nat.toDigits 10 n).length
  · rw [Nat.sub_eq_zero_of_le hle, Nat.zero_add] at hlength
    rw [Nat.sub_eq_zero_of_le hle] at hpadded
    have hn : n ≠ 0 := by
      rintro rfl
      exact he (Nat.le_zero.1 (Nat.le_of_succ_le_succ hle))
    obtain ⟨k, hk⟩ : ∃ k, padded.length - e = k + 1 := ⟨padded.length - e - 1, by omega⟩
    rw [hk]
    have hhead : (padded.take (k + 1)).head? = (Nat.toDigits 10 n).head? := by
      rw [List.head?_take, if_neg (Nat.succ_ne_zero k), hpadded]
      rfl
    refine ⟨fun hnil => ?_, fun hzero => absurd (hhead.symm.trans hzero) (head?_toDigits_ne hn)⟩
    rw [hnil] at hhead
    exact Nat.toDigits_ne_nil (List.head?_eq_none_iff.1 hhead.symm)
  · obtain ⟨k, hk⟩ : ∃ k, e + 1 - (Nat.toDigits 10 n).length = k + 1 :=
      ⟨e - (Nat.toDigits 10 n).length, by omega⟩
    have hone : padded.length - e = 1 := by omega
    rw [hone, hpadded, hk]
    exact ⟨List.cons_ne_nil _ _, fun _ => rfl⟩

theorem numberOf_numberText (m : Int) (e : Nat) : NumberOf m e (numberText m e).toList := by
  have hsign : (if m < 0 then "-" else "").toList = sign m := by
    unfold sign
    split <;> rfl
  have hdigits : toString m.natAbs = String.ofList (Nat.toDigits 10 m.natAbs) :=
    Nat.toString_eq_ofList_toDigits
  cases e with
  | zero =>
    rw [numberText, if_pos rfl, String.toList_append, hsign, hdigits, String.toList_ofList]
    exact .whole (whole_toDigits _) (numeral_toDigits (by decide) _)
  | succ e =>
    generalize hpadded : List.replicate (e + 2 - (Nat.toDigits 10 m.natAbs).length) '0' ++
      Nat.toDigits 10 m.natAbs = padded
    have htext : (numberText m (e + 1)).toList = sign m ++
        (padded.take (padded.length - (e + 1)) ++
          '.' :: padded.drop (padded.length - (e + 1))) := by
      rw [← hpadded, ← hsign]
      simp [numberText, hdigits]
    have hnumeral : Numeral 10 padded m.natAbs :=
      hpadded ▸ (numeral_toDigits (by decide) _).replicate_append _
    have hlength : e + 2 ≤ padded.length := by
      rw [← hpadded, List.length_append, List.length_replicate]
      omega
    rw [htext]
    refine .decimal (whole_take_padded (Nat.succ_ne_zero e) hpadded.symm) ?_ ?_
    · rw [List.length_drop]
      omega
    · rwa [List.take_append_drop]

theorem memberOf_quote (k : String) {v : Json} {text : List Char} (hv : TextOf v text) :
    MemberOf (k, v) ((quote k).toList ++ ':' :: ' ' :: text) := by
  have hblank : Blank [' '] := by simp [Blank]
  simpa using MemberOf.mk (stringOf_quote k) blank_nil hblank hv

mutual
/-- The text of a value that stands inside others is a text of it. -/
theorem textOf_prettyAt (level : Nat) : (v : Json) → TextOf v (prettyAt level v).toList
  | .null => by simpa [prettyAt] using TextOf.null
  | .bool true => by simpa [prettyAt] using TextOf.true
  | .bool false => by simpa [prettyAt] using TextOf.false
  | .number m e => by simpa only [prettyAt] using TextOf.number (numberOf_numberText m e)
  | .string s => by simpa only [prettyAt] using TextOf.string (stringOf_quote s)
  | .array [] => by simpa [prettyAt] using TextOf.array (.nil blank_nil)
  | .array (v :: vs) => by
    have h := separated_prettyRest (level + 1) level (textOf_prettyAt (level + 1) v) vs
    simpa [prettyAt] using TextOf.array h
  | .object [] => by simpa [prettyAt] using TextOf.object (.nil blank_nil)
  | .object ((k, v) :: ms) => by
    have hm := memberOf_quote k (textOf_prettyAt (level + 1) v)
    have h := separated_prettyMembers (level + 1) level hm ms
    simpa [prettyAt] using TextOf.object h

/-- An entry and those behind it, each on a new line. -/
theorem separated_prettyRest (level outer : Nat) {v : Json} {text : List Char} (hv : TextOf v text) :
    (vs : List Json) → Separated TextOf (v :: vs)
      ((newline level).toList ++ (text ++ ((prettyRest level vs).toList ++ (newline outer).toList)))
  | [] => .last (blank_newline level) hv (blank_newline outer)
  | w :: vs => by
    have h := separated_prettyRest level outer (textOf_prettyAt level w) vs
    simpa [prettyRest] using Separated.cons (blank_newline level) hv blank_nil h

/-- A member and those behind it, each on a new line. -/
theorem separated_prettyMembers (level outer : Nat) {m : String × Json} {text : List Char}
    (hm : MemberOf m text) : (ms : List (String × Json)) → Separated MemberOf (m :: ms)
      ((newline level).toList ++
        (text ++ ((prettyMembers level ms).toList ++ (newline outer).toList)))
  | [] => .last (blank_newline level) hm (blank_newline outer)
  | (k, v) :: ms => by
    have hm' := memberOf_quote k (textOf_prettyAt level v)
    have h := separated_prettyMembers level outer hm' ms
    simpa [prettyMembers] using Separated.cons (blank_newline level) hm blank_nil h
end

/-- What is written for a value is a text of it. -/
theorem textOf_pretty (v : Json) : TextOf v v.pretty.toList := textOf_prettyAt 0 v

example : pretty (.object [("a", .array [.number (-12) 1, .string "\n"]), ("b", .array [])]) =
    "\x7b\n  \"a\": [\n    -1.2,\n    \"\\n\"\n  ],\n  \"b\": []\n\x7d" := by decide +kernel

end Blueprint.Json
