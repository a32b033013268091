/-! Texts as lists of characters, measured and cut in UTF-8 bytes. Cuts that fall between two
characters split a text without loss (`takeBytes_append_dropBytes`), and a slice between the byte
lengths of two parts is the part between them (`slice_append`). -/

namespace Blueprint.Text

/-- The number of bytes that the characters take in UTF-8. -/
def byteLength : List Char → Nat
  | [] => 0
  | c :: cs => c.utf8Size + byteLength cs

/-- What is left after the first `n` bytes; a cut inside a character drops that character. -/
def dropBytes : Nat → List Char → List Char
  | 0, cs => cs
  | _ + 1, [] => []
  | n + 1, c :: cs => dropBytes (n + 1 - c.utf8Size) cs

/-- The first `n` bytes; a cut inside a character keeps that character. -/
def takeBytes : Nat → List Char → List Char
  | 0, _ => []
  | _ + 1, [] => []
  | n + 1, c :: cs => c :: takeBytes (n + 1 - c.utf8Size) cs

/-- The characters between two byte offsets. -/
def slice (cs : List Char) (start stop : Nat) : List Char :=
  takeBytes (stop - start) (dropBytes start cs)

@[simp] theorem byteLength_nil : byteLength [] = 0 := rfl

@[simp] theorem byteLength_cons (c : Char) (cs : List Char) :
    byteLength (c :: cs) = c.utf8Size + byteLength cs := rfl

@[simp] theorem byteLength_append (as bs : List Char) :
    byteLength (as ++ bs) = byteLength as + byteLength bs := by
  induction as with
  | nil => simp
  | cons a as ih => simp [ih, Nat.add_assoc]

theorem length_le_byteLength (cs : List Char) : cs.length ≤ byteLength cs := by
  induction cs with
  | nil => simp
  | cons c cs ih => have := c.utf8Size_pos; simp; omega

theorem takeBytes_append_dropBytes (n : Nat) (cs : List Char) :
    takeBytes n cs ++ dropBytes n cs = cs := by
  fun_induction takeBytes n cs with
  | case1 => simp [dropBytes]
  | case2 => simp [dropBytes]
  | case3 n c cs ih => simp [dropBytes, ih]

theorem dropBytes_append (as bs : List Char) (n : Nat) :
    dropBytes (byteLength as + n) (as ++ bs) = dropBytes n bs := by
  induction as with
  | nil => simp
  | cons a as ih =>
    have := a.utf8Size_pos
    obtain ⟨k, hk⟩ : ∃ k, byteLength (a :: as) + n = k + 1 :=
      ⟨byteLength (a :: as) + n - 1, by simp; omega⟩
    rw [hk, List.cons_append, dropBytes, ← hk, ← ih]
    congr 1
    simp
    omega

theorem takeBytes_append (as bs : List Char) : takeBytes (byteLength as) (as ++ bs) = as := by
  induction as with
  | nil => cases bs <;> rfl
  | cons a as ih =>
    have := a.utf8Size_pos
    obtain ⟨k, hk⟩ : ∃ k, byteLength (a :: as) = k + 1 :=
      ⟨byteLength (a :: as) - 1, by simp; omega⟩
    rw [hk, List.cons_append, takeBytes, ← hk]
    congr 1
    simpa using ih

theorem slice_append (as bs cs : List Char) :
    slice (as ++ bs ++ cs) (byteLength as) (byteLength as + byteLength bs) = bs := by
  have h := dropBytes_append as (bs ++ cs) 0
  simp only [Nat.add_zero, ← List.append_assoc] at h
  rw [slice, h, Nat.add_sub_cancel_left]
  simpa [dropBytes] using takeBytes_append bs cs

end Blueprint.Text
