import Blueprint.Text.Visible

/-!
# Escaped text

Text between quotes is made of one piece for each character (`Escaped`): the character itself, a
backslash and a letter, or a backslash and the number of the character. Which letters there are, and
how a number is written, is a matter of the format. Visible text is of this kind
(`Visible.escaped_quote`), and so it stays on one line.
-/

namespace Blueprint.Text

/-- Digits that stand for a number. Those above nine are letters in lower case. -/
inductive Numeral (base : Nat) : List Char → Nat → Prop
  | digit {d : Nat} : d < base → Numeral base [d.digitChar] d
  | snoc {ds : List Char} {n d : Nat} : Numeral base ds n → d < base →
    Numeral base (ds ++ [d.digitChar]) (base * n + d)

/-- A piece of text that stands for a character. With a backslash in front, `letters` says which
letter stands for which character, and `IsNumber` what stands for a number. -/
inductive EscapedChar (letters : List (Char × Char)) (IsNumber : List Char → Nat → Prop) :
    List Char → Char → Prop
  | plain {c : Char} : 0x20 ≤ c.toNat → c ≠ '"' → c ≠ '\\' → EscapedChar letters IsNumber [c] c
  | letter {e c : Char} : (e, c) ∈ letters → EscapedChar letters IsNumber ['\\', e] c
  | number {ds : List Char} {c : Char} : IsNumber ds c.toNat →
    EscapedChar letters IsNumber ('\\' :: 'u' :: ds) c

/-- Text that stands for characters, piece by piece. -/
inductive Escaped (letters : List (Char × Char)) (IsNumber : List Char → Nat → Prop) :
    (text value : List Char) → Prop
  | nil : Escaped letters IsNumber [] []
  | cons {piece text value : List Char} {c : Char} : EscapedChar letters IsNumber piece c →
    Escaped letters IsNumber text value → Escaped letters IsNumber (piece ++ text) (c :: value)

theorem numeral_toDigits {base : Nat} (h : 1 < base) (n : Nat) :
    Numeral base (Nat.toDigits base n) n := by
  induction n using Nat.strongRecOn with
  | ind n ih =>
    rw [Nat.toDigits_eq_if h]
    split
    · next hlt => exact .digit hlt
    · next hle =>
      have hdiv : n / base < n := Nat.div_lt_self (by omega) h
      have hsnoc := Numeral.snoc (ih _ hdiv) (Nat.mod_lt n (Nat.zero_lt_of_lt h))
      rwa [Nat.div_add_mod] at hsnoc

theorem Numeral.zero_cons {base n : Nat} {ds : List Char} (H : Numeral base ds n) :
    Numeral base ('0' :: ds) n := by
  induction H with
  | @digit d hd =>
    have h := Numeral.snoc (.digit (Nat.zero_lt_of_lt hd)) hd
    rwa [Nat.mul_zero, Nat.zero_add] at h
  | snoc _ hd ih => exact ih.snoc hd

theorem Numeral.replicate_append {base n : Nat} {ds : List Char} (H : Numeral base ds n) (k : Nat) :
    Numeral base (List.replicate k '0' ++ ds) n := by
  induction k with
  | zero => exact H
  | succ k ih => exact ih.zero_cons

/-- The digits of a number start with a zero only when it is zero. -/
theorem head?_toDigits_ne {n : Nat} (hn : n ≠ 0) : (Nat.toDigits 10 n).head? ≠ some '0' := by
  induction n using Nat.strongRecOn with
  | ind n ih =>
    rw [Nat.toDigits_eq_if (by decide)]
    split
    · next hlt => simpa using hn
    · next hge =>
      have hdiv : n / 10 ≠ 0 := by omega
      have hhead := ih _ (Nat.div_lt_self (by omega) (by decide)) hdiv
      rwa [List.head?_append, Option.or_of_isSome (List.isSome_head?.2 Nat.toDigits_ne_nil)]

theorem Numeral.newline_not_mem {base n : Nat} {ds : List Char} (H : Numeral base ds n) :
    '\n' ∉ ds := by
  induction H with
  | digit => simp
  | snoc _ _ ih => simp [ih]

section
variable {letters : List (Char × Char)} {IsNumber : List Char → Nat → Prop}

/-- What writes a piece for each character writes a text for all of them. -/
theorem escaped_flatMap {escape : Char → List Char}
    (h : ∀ c, EscapedChar letters IsNumber (escape c) c) (cs : List Char) :
    Escaped letters IsNumber (cs.flatMap escape) cs := by
  induction cs with
  | nil => exact .nil
  | cons c cs ih => exact .cons (h c) ih

/-- Escaped text has no newline in it when neither letters nor numbers are written with one. -/
theorem Escaped.newline_not_mem (hletters : ∀ p ∈ letters, p.1 ≠ '\n')
    (hnumber : ∀ ds n, IsNumber ds n → '\n' ∉ ds) {text value : List Char}
    (H : Escaped letters IsNumber text value) : '\n' ∉ text := by
  induction H with
  | nil => exact List.not_mem_nil
  | cons hpiece _ ih =>
    refine fun hmem => (List.mem_append.1 hmem).elim (fun hmem => ?_) ih
    cases hpiece with
    | plain hle =>
      rw [← List.mem_singleton.1 hmem] at hle
      exact absurd hle (by decide)
    | letter he =>
      have hne := hletters _ he
      simp [Ne.symm hne] at hmem
    | number hds =>
      have hne := hnumber _ _ hds
      simp [hne] at hmem

end

namespace Visible

/-- The letters that stand for a character behind a backslash. -/
def letters : List (Char × Char) :=
  [('"', '"'), ('\\', '\\'), ('t', '\t'), ('r', '\r'), ('n', '\n'), ('0', '\x00')]

/-- A number in hexadecimal digits between braces. -/
def IsNumber (ds : List Char) (n : Nat) : Prop :=
  ∃ digits, ds = '\x7b' :: (digits ++ ['\x7d']) ∧ Numeral 16 digits n

theorem escapedChar_escape (c : Char) : EscapedChar letters IsNumber (escape c) c := by
  unfold escape
  split
  case h_7 hquote hback ht hr hn h0 =>
    split
    · next hc =>
      simp only [isPrintable, Bool.and_eq_true, decide_eq_true_eq] at hc
      exact .plain hc.1.1 hquote hback
    · exact .number ⟨_, rfl, numeral_toDigits (by decide) _⟩
  all_goals exact .letter (by decide)

/-- A visible text is escaped between two quotes. -/
theorem escaped_quote (cs : List Char) : ∃ text, (quote cs).toList = '"' :: (text ++ ['"']) ∧
    Escaped letters IsNumber text cs :=
  ⟨_, String.toList_ofList, escaped_flatMap escapedChar_escape cs⟩

/-- A combining mark is shown by its number, so that it does not end up on the letter before it. -/
example : quote ['e', '\u0301'] = "\"e\\u\x7b301\x7d\"" := by decide +kernel

theorem newline_not_mem_quote (cs : List Char) : '\n' ∉ (quote cs).toList := by
  obtain ⟨text, htext, H⟩ := escaped_quote cs
  have hline := H.newline_not_mem (by decide) (by
    rintro _ n ⟨digits, rfl, hdigits⟩
    simpa using hdigits.newline_not_mem)
  rw [htext]
  simpa using hline

end Visible

end Blueprint.Text
