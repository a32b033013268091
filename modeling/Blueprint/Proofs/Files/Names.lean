import Mathlib.Data.String.Basic
import Mathlib.Data.List.TakeWhile
import Blueprint.Files

/-!
# Names and paths

Which names are those of module files (`isModuleFile_iff`), the order of paths as lists of names
(`namesLe_iff`), and that paths below one directory are the same only when their names are
(`join_injOn`).
-/

namespace Blueprint.Files

/-- A name that a directory can list: something, and without the character that joins names. -/
structure IsName (name : String) : Prop where
  nonempty : name ≠ ""
  noSlash : '/' ∉ name.toList

/-! ### Extensions -/

theorem extension?_of_append {stem : List Char} (hstem : stem ≠ []) {ending : List Char}
    (hending : '.' ∉ ending) :
    extension? (String.ofList (stem ++ '.' :: ending)) = some (String.ofList ending) := by
  have hreverse : (stem ++ '.' :: ending).reverse = ending.reverse ++ '.' :: stem.reverse := by
    simp
  have htake : (ending.reverse ++ '.' :: stem.reverse).takeWhile (· != '.') = ending.reverse := by
    rw [List.takeWhile_append_of_pos, List.takeWhile_cons_of_neg (by simp), List.append_nil]
    intro c hc
    simpa using ne_of_mem_of_not_mem (List.mem_reverse.1 hc) hending
  obtain ⟨c, cs, hc⟩ := List.exists_cons_of_ne_nil (mt List.reverse_eq_nil_iff.1 hstem)
  rw [extension?, String.toList_ofList, hreverse, htake, List.drop_left, hc, List.reverse_reverse]

theorem exists_of_extension? {name ending : String} (h : extension? name = some ending) :
    ∃ stem, stem ≠ "" ∧ '.' ∉ ending.toList ∧ name = stem ++ "." ++ ending := by
  have hsplit := List.takeWhile_append_dropWhile (p := (· != '.')) (l := name.toList.reverse)
  have hdrop := @List.drop_left Char (name.toList.reverse.takeWhile (· != '.'))
    (name.toList.reverse.dropWhile (· != '.'))
  rw [hsplit] at hdrop
  rw [extension?, hdrop] at h
  split at h
  · cases h
  · cases h
  · next x y ys hrest =>
    have hx : x = '.' := by
      have := List.head?_dropWhile_not (· != '.') name.toList.reverse
      simpa [hrest] using this
    subst hx
    cases h
    refine ⟨String.ofList (y :: ys).reverse, ?_, ?_, ?_⟩
    · intro hstem
      exact List.cons_ne_nil y ys (List.reverse_eq_nil_iff.1 (String.ofList_eq_empty_iff.1 hstem))
    · rw [String.toList_ofList, List.mem_reverse]
      exact fun h => absurd (List.mem_takeWhile_imp h) (by decide)
    · rw [hrest] at hsplit
      have hname := congrArg List.reverse hsplit
      rw [List.reverse_reverse] at hname
      exact String.toList_injective (hname.symm.trans (by simp))

/-- A module file has its ending behind something. -/
theorem isModuleFile_iff (name : String) :
    isModuleFile name = true ↔ ∃ stem, stem ≠ "" ∧ name = stem ++ ".bp" := by
  rw [isModuleFile, beq_iff_eq]
  constructor
  · intro h
    obtain ⟨stem, hstem, -, rfl⟩ := exists_of_extension? h
    exact ⟨stem, hstem, String.append_assoc⟩
  · rintro ⟨stem, hstem, rfl⟩
    have hlist : stem ++ ".bp" = String.ofList (stem.toList ++ '.' :: ['b', 'p']) := by
      apply String.toList_injective
      simp
    rw [hlist, extension?_of_append (mt String.toList_eq_nil_iff.1 hstem) (by decide)]

/-! ### The order of paths -/

theorem namesLe_iff (as bs : List String) : namesLe as bs = true ↔ as < bs ∨ as = bs := by
  fun_induction namesLe as bs with
  | case1 bs => cases bs <;> simp
  | case2 a as => simp
  | case3 a as bs ih => simp [ih]
  | case4 a as b bs h => simp [List.cons_lt_cons_iff, h]

theorem namesLe_trans {as bs cs : List String} (h : namesLe as bs = true)
    (h' : namesLe bs cs = true) : namesLe as cs = true := by
  rw [namesLe_iff] at *
  rcases h with h | rfl
  · rcases h' with h' | rfl
    · exact .inl (List.lt_trans h h')
    · exact .inl h
  · exact h'

theorem namesLe_total (as bs : List String) : (namesLe as bs || namesLe bs as) = true := by
  rw [Bool.or_eq_true, namesLe_iff, namesLe_iff]
  rcases lt_trichotomy as bs with h | h | h
  · exact .inl (.inl h)
  · exact .inl (.inr h)
  · exact .inr (.inl h)

/-! ### Joined paths -/

/-- What separates a path from a name that is joined to it. -/
def separator (path : String) : String := if path.toList.getLast? = some '/' then "" else "/"

theorem join_cons (path name : String) (names : List String) :
    join path (name :: names) = join (path ++ separator path ++ name) names := by
  rw [join, join, List.foldl_cons, separator]
  by_cases h : path.toList.getLast? = some '/' <;> simp [h]

theorem separator_append_name (path : String) {name : String} (h : IsName name) :
    separator (path ++ name) = "/" := by
  have hne : name.toList ≠ [] := mt String.toList_eq_nil_iff.1 h.nonempty
  apply if_neg
  rw [String.toList_append, List.getLast?_append, List.getLast?_eq_some_getLast hne]
  intro hlast
  exact h.noSlash (Option.some.inj hlast ▸ List.getLast_mem hne)

theorem toList_join (path : String) {names : List String} (hnames : ∀ name ∈ names, IsName name)
    (hne : names ≠ []) :
    (join path names).toList = path.toList ++ (separator path).toList ++
      ['/'].intercalate (names.map String.toList) := by
  induction names generalizing path with
  | nil => exact absurd rfl hne
  | cons name names ih =>
    rw [join_cons]
    cases names with
    | nil => simp [join]
    | cons next names =>
      have hname := hnames name (.head _)
      rw [ih _ (fun n hn => hnames n (.tail _ hn)) (List.cons_ne_nil _ _),
        separator_append_name _ hname, List.map_cons, List.map_cons, List.map_cons,
        List.intercalate_cons_cons]
      simp

theorem join_injOn (path : String) {names names' : List String}
    (hnames : ∀ name ∈ names, IsName name) (hne : names ≠ [])
    (hnames' : ∀ name ∈ names', IsName name) (hne' : names' ≠ [])
    (h : join path names = join path names') : names = names' := by
  have hjoin := congrArg String.toList h
  rw [toList_join path hnames hne, toList_join path hnames' hne', List.append_cancel_left_eq]
    at hjoin
  have hsplit := congrArg (List.splitOn '/') hjoin
  have hslash (names : List String) (hnames : ∀ name ∈ names, IsName name) :
      ∀ cs ∈ names.map String.toList, '/' ∉ cs := by
    intro cs hcs
    obtain ⟨name, hname, rfl⟩ := List.mem_map.1 hcs
    exact (hnames name hname).noSlash
  rw [List.splitOn_intercalate _ (hslash _ hnames) (mt List.map_eq_nil_iff.1 hne),
    List.splitOn_intercalate _ (hslash _ hnames') (mt List.map_eq_nil_iff.1 hne')] at hsplit
  exact List.map_injective_iff.2 (fun _ _ => String.toList_injective) hsplit

end Blueprint.Files
