import CalendarQuery.Text.Slashed
import Mathlib.Data.List.DropRight
import Mathlib.Data.String.Basic

/-!
# Spellings of a path

The path under which a collection is stored is the path without the slashes at its end
(`withoutTrailing_eq`). All spellings of a path are stored under the same path
(`withoutTrailing_append_slashes`), except those of the root: `/` is stored as it is, and two slashes
or more as the empty path.

* `Text.slashes`: a run of slashes.
* `Text.IsStored`: the paths under which collections are stored.
* `Text.IsName`: the names between the slashes of a path, with what joining them to a path does.
-/

namespace CalendarQuery.Text

/-- So many slashes. -/
def slashes (n : Nat) : String := String.ofList (List.replicate n '/')

theorem toList_slashes (n : Nat) : (slashes n).toList = List.replicate n '/' :=
  String.toList_ofList

/-! ## Slashes at the end -/

theorem dropTrailing_eq_rdropWhile (cs : List Char) : dropTrailing cs = cs.rdropWhile (· == '/') :=
  rfl

theorem dropTrailing_append_slashes (cs : List Char) (n : Nat) :
    dropTrailing (cs ++ List.replicate n '/') = dropTrailing cs := by
  induction n with
  | zero => simp
  | succ n ih =>
    rw [List.replicate_succ', ← List.append_assoc, dropTrailing_eq_rdropWhile,
      List.rdropWhile_concat_pos _ _ _ (by simp)]
    exact ih

theorem dropTrailing_of_getLast? {cs : List Char} (h : cs.getLast? ≠ some '/') :
    dropTrailing cs = cs := by
  rw [dropTrailing_eq_rdropWhile, List.rdropWhile_eq_self_iff]
  intro hne hlast
  exact h (by rw [List.getLast?_eq_some_getLast hne, beq_iff_eq.mp hlast])

theorem getLast?_dropTrailing (cs : List Char) : (dropTrailing cs).getLast? ≠ some '/' := by
  intro h
  have hne : dropTrailing cs ≠ [] := by
    intro hnil
    rw [hnil] at h
    cases h
  rw [List.getLast?_eq_some_getLast hne, Option.some.injEq] at h
  exact List.rdropWhile_last_not _ _ hne (beq_iff_eq.mpr h)

theorem dropTrailing_eq_nil {cs : List Char} :
    dropTrailing cs = [] ↔ cs = List.replicate cs.length '/' := by
  rw [dropTrailing_eq_rdropWhile, List.rdropWhile_eq_nil_iff, List.eq_replicate_iff]
  simp

theorem head?_dropTrailing {cs : List Char} (h : dropTrailing cs ≠ []) :
    (dropTrailing cs).head? = cs.head? := by
  obtain ⟨rest, hrest⟩ := List.rdropWhile_prefix (p := (· == '/')) (l := cs)
  obtain ⟨d, ds, hd⟩ := List.exists_cons_of_ne_nil h
  rw [← dropTrailing_eq_rdropWhile, hd] at hrest
  rw [hd, ← hrest]
  rfl

/-! ## The path of a spelling -/

theorem one_lt_utf8ByteSize {path : String} {c d : Char} {cs : List Char}
    (h : path.toList = c :: d :: cs) : 1 < path.utf8ByteSize := by
  have hc := c.utf8Size_pos
  have hd := d.utf8Size_pos
  rw [← String.ofList_toList (s := path), h, String.utf8ByteSize_ofList]
  simp only [String.utf8Len_cons]
  omega

/-- Only the path of the root keeps its slash. -/
theorem withoutTrailing_eq (path : String) : withoutTrailing path =
    if path = "/" then "/" else String.ofList (dropTrailing path.toList) := by
  by_cases hroot : path = "/"
  · subst hroot
    decide
  rw [if_neg hroot, withoutTrailing]
  split
  · rfl
  · rename_i hshort
    have hsame : dropTrailing path.toList = path.toList := by
      match hpath : path.toList with
      | [] => rfl
      | [c] =>
        refine dropTrailing_of_getLast? fun hc => hroot ?_
        rw [← String.toList_inj, hpath]
        simpa using hc
      | c :: d :: cs => exact absurd (one_lt_utf8ByteSize hpath) hshort
    rw [hsame, String.ofList_toList]

theorem withoutTrailing_root : withoutTrailing "/" = "/" := by decide

theorem withoutTrailing_of_getLast? {path : String} (h : path.toList.getLast? ≠ some '/') :
    withoutTrailing path = path := by
  have hroot : path ≠ "/" := by
    rintro rfl
    exact h (by decide)
  rw [withoutTrailing_eq, if_neg hroot, dropTrailing_of_getLast? h, String.ofList_toList]

/-- The paths under which collections are stored: the root, the empty path, and absolute paths
without a slash at the end. -/
def IsStored (path : String) : Prop :=
  (path = "" ∨ isAbsolute path = true) ∧ (path.toList.getLast? = some '/' → path = "/")

theorem IsStored.dropTrailing_eq {path : String} (h : IsStored path) (hroot : path ≠ "/") :
    dropTrailing path.toList = path.toList :=
  dropTrailing_of_getLast? fun hlast => hroot (h.2 hlast)

/-- Of two such paths, at most the root and the empty path differ only in the slashes at the end. -/
theorem IsStored.eq_or {path other : String} (hpath : IsStored path) (hother : IsStored other)
    (h : dropTrailing path.toList = dropTrailing other.toList) :
    path = other ∨ (path = "/" ∧ other = "") ∨ (path = "" ∧ other = "/") := by
  have hnil : ∀ {p : String}, p ≠ "/" → IsStored p →
      dropTrailing "/".toList = dropTrailing p.toList → p = "" := by
    intro p hp hstored heq
    rw [hstored.dropTrailing_eq hp] at heq
    exact String.toList_inj.mp heq.symm
  by_cases hp : path = "/"
  · subst hp
    by_cases ho : other = "/"
    · exact .inl ho.symm
    · exact .inr (.inl ⟨rfl, hnil ho hother h⟩)
  · by_cases ho : other = "/"
    · subst ho
      exact .inr (.inr ⟨hnil hp hpath h.symm, rfl⟩)
    · rw [hpath.dropTrailing_eq hp, hother.dropTrailing_eq ho] at h
      exact .inl (String.toList_inj.mp h)

theorem IsStored.withoutTrailing_eq {path : String} (h : IsStored path) :
    withoutTrailing path = path := by
  by_cases hroot : path = "/"
  · subst hroot
    exact withoutTrailing_root
  · exact withoutTrailing_of_getLast? fun hlast => hroot (h.2 hlast)

theorem isStored_withoutTrailing {path : String} (h : isAbsolute path = true) :
    IsStored (withoutTrailing path) := by
  rw [Text.withoutTrailing_eq]
  by_cases hroot : path = "/"
  · rw [if_pos hroot]
    exact ⟨.inr (by decide), fun _ => rfl⟩
  rw [if_neg hroot]
  refine ⟨?_, fun hlast => ?_⟩
  · by_cases hnil : dropTrailing path.toList = []
    · exact .inl (by rw [hnil])
    · refine .inr ?_
      rw [isAbsolute, String.toList_ofList, head?_dropTrailing hnil]
      exact h
  · rw [String.toList_ofList] at hlast
    exact absurd hlast (getLast?_dropTrailing _)

/-- An absolute path is stored as the empty path if and only if it is made of two slashes or more. -/
theorem withoutTrailing_eq_empty {path : String} (h : isAbsolute path = true) :
    withoutTrailing path = "" ↔ ∃ n, path = slashes (n + 2) := by
  rw [Text.withoutTrailing_eq]
  by_cases hroot : path = "/"
  · subst hroot
    constructor
    · intro hempty
      simp at hempty
    · rintro ⟨n, hn⟩
      have := congrArg (fun p => p.toList.length) hn
      simp [toList_slashes] at this
  rw [if_neg hroot, ← String.toList_inj, String.toList_ofList]
  constructor
  · intro hnil
    have hall := dropTrailing_eq_nil.mp hnil
    match hpath : path.toList with
    | [] => simp [isAbsolute, hpath] at h
    | [c] =>
      rw [hpath] at hall
      exact absurd (String.toList_inj.mp (by rw [hpath]; simpa using hall)) hroot
    | c :: d :: cs =>
      refine ⟨cs.length, String.toList_inj.mp ?_⟩
      rw [toList_slashes, hall, hpath]
      rfl
  · rintro ⟨n, rfl⟩
    rw [toList_slashes]
    exact dropTrailing_append_slashes [] (n + 2)

/-- More slashes at the end do not change where an absolute path is stored, if it is not the root. -/
theorem withoutTrailing_append_slashes {path : String} (h : isAbsolute path = true)
    (hroot : path ≠ "/") (n : Nat) :
    withoutTrailing (path ++ slashes n) = withoutTrailing path := by
  have hmore : path ++ slashes n ≠ "/" := by
    intro heq
    have hlength := congrArg (fun p => p.toList.length) heq
    rw [String.toList_append, toList_slashes, List.length_append, List.length_replicate] at hlength
    match hpath : path.toList with
    | [] => simp [isAbsolute, hpath] at h
    | [c] =>
      rw [isAbsolute, hpath] at h
      refine hroot (String.toList_inj.mp ?_)
      rw [hpath]
      simpa using h
    | c :: d :: cs =>
      rw [hpath] at hlength
      simp only [List.length_cons] at hlength
      change _ = 1 at hlength
      omega
  rw [withoutTrailing_eq, withoutTrailing_eq, if_neg hmore, if_neg hroot, String.toList_append,
    toList_slashes, dropTrailing_append_slashes]

/-! ## Names -/

/-- What can stand between two slashes. -/
def IsName (name : String) : Prop := name.toList ≠ [] ∧ '/' ∉ name.toList

theorem splitSlashes_ne_nil (cs : List Char) : splitSlashes cs ≠ [] := by
  cases cs with
  | nil => simp [splitSlashes]
  | cons c cs =>
    rw [splitSlashes]
    split
    · simp
    · split <;> simp

theorem slash_not_mem_of_mem_splitSlashes {cs piece : List Char} (h : piece ∈ splitSlashes cs) :
    '/' ∉ piece := by
  induction cs generalizing piece with
  | nil =>
    obtain rfl := List.mem_singleton.mp h
    simp
  | cons c cs ih =>
    rw [splitSlashes] at h
    split at h
    · rename_i hnil
      exact absurd hnil (splitSlashes_ne_nil cs)
    · rename_i first others hsplit
      rw [hsplit] at ih
      split at h
      · rcases List.mem_cons.mp h with rfl | h
        · simp
        · exact ih h
      · rename_i hc
        rcases List.mem_cons.mp h with rfl | h
        · simpa [Ne.symm hc] using ih List.mem_cons_self
        · exact ih (List.mem_cons_of_mem _ h)

theorem isName_of_mem_pathSegments {path name : String} (h : name ∈ pathSegments path) :
    IsName name := by
  obtain ⟨piece, hpiece, rfl⟩ := List.mem_map.mp h
  obtain ⟨hmem, hne⟩ := List.mem_filter.mp hpiece
  rw [IsName, String.toList_ofList]
  exact ⟨by simpa using hne, slash_not_mem_of_mem_splitSlashes hmem⟩

theorem toList_joinPath (parent name : String) : (joinPath parent name).toList =
    (if parent.toList.getLast? = some '/' then parent.toList else parent.toList ++ ['/']) ++
      name.toList := by
  unfold joinPath
  by_cases h : parent.toList.getLast? = some '/' <;> simp [h]

theorem getLast?_joinPath {name : String} (h : IsName name) (parent : String) :
    (joinPath parent name).toList.getLast? ≠ some '/' := by
  intro hlast
  rw [toList_joinPath, List.getLast?_append, List.getLast?_eq_some_getLast h.1, Option.some_or,
    Option.some.injEq] at hlast
  exact h.2 (hlast ▸ List.getLast_mem h.1)

theorem withoutTrailing_joinPath {name : String} (h : IsName name) (parent : String) :
    withoutTrailing (joinPath parent name) = joinPath parent name :=
  withoutTrailing_of_getLast? (getLast?_joinPath h parent)

theorem isAbsolute_joinPath {parent : String} (h : isAbsolute parent = true) (name : String) :
    isAbsolute (joinPath parent name) = true := by
  have hhead : parent.toList.head? = some '/' := by simpa [isAbsolute] using h
  rw [isAbsolute, toList_joinPath]
  split <;> simp [List.head?_append, hhead]

theorem isAbsolute_foldl_joinPath {parent : String} (h : isAbsolute parent = true)
    (names : List String) : isAbsolute (names.foldl joinPath parent) = true := by
  induction names generalizing parent with
  | nil => exact h
  | cons name names ih => exact ih (isAbsolute_joinPath h name)

theorem length_lt_length_joinPath {name : String} (h : IsName name) (parent : String) :
    parent.toList.length < (joinPath parent name).toList.length := by
  have hpos := List.length_pos_of_ne_nil h.1
  rw [toList_joinPath, List.length_append]
  split
  · omega
  · rw [List.length_append]
    omega

end CalendarQuery.Text
