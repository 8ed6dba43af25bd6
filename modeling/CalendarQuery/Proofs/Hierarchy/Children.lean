import CalendarQuery.Proofs.Hierarchy.Store

/-!
# Members and names

The members of a collection are found backwards, by the paths one step up from those that are
stored, and a segment of a path is found forwards, by joining it to the path of its parent. For a
stored path the two agree, except where a path has two slashes at its start: that is a member of the
root and joins to no name below it, and what joins to a name below the empty path is a member of the
root.

* `Text.exists_lastName`: a stored path is a name behind a last slash.
* `Store.Holds`: what is found at a name below a path.
* `Store.below_holds`: the members of any collection, and when they are what its path holds.
-/

namespace CalendarQuery

namespace Text

/-! ## The last name of a path -/

theorem getLast?_of_lastName {path name : String} {above : List Char} (hname : IsName name)
    (h : path.toList = above ++ '/' :: name.toList) : path.toList.getLast? ≠ some '/' := by
  intro hlast
  rw [h, List.getLast?_append, List.getLast?_cons, List.getLast?_eq_some_getLast hname.1] at hlast
  simp only [Option.getD_some, Option.some_or, Option.some.injEq] at hlast
  exact hname.2 (hlast ▸ List.getLast_mem hname.1)

/-- One step up from a path is what stands before its last slash, or the root. -/
theorem parentPath?_of_lastName {path name : String} {above : List Char} (hname : IsName name)
    (h : path.toList = above ++ '/' :: name.toList) :
    parentPath? path = some (if above = [] then "/" else String.ofList above) := by
  have habove : (path.toList.reverse.dropWhile (· != '/')).reverse = above ++ ['/'] := by
    have hskip : (above ++ '/' :: name.toList).rdropWhile (· != '/') = above ++ ['/'] := by
      have hall : ∀ c ∈ name.toList.reverse, (c != '/') = true := by
        intro c hc
        simp only [bne_iff_ne, ne_eq]
        rintro rfl
        exact hname.2 (List.mem_reverse.mp hc)
      rw [List.rdropWhile, List.reverse_append, List.reverse_cons, List.append_assoc,
        List.dropWhile_append_of_pos hall]
      simp
    rw [h]
    exact hskip
  unfold parentPath?
  simp only [dropTrailing_of_getLast? (getLast?_of_lastName hname h), habove,
    List.dropLast_concat]
  by_cases hnil : above = []
  · simp [hnil]
  · simp [hnil]

/-- A stored path other than those of the root and of two slashes has a last name. -/
theorem exists_lastName {path : String} (h : IsStored path) (hroot : path ≠ "/")
    (hempty : path ≠ "") :
    ∃ above name, IsName name ∧ path.toList = above ++ '/' :: name.toList := by
  have habsolute := h.1.resolve_left hempty
  have hslash : '/' ∈ path.toList.reverse := by
    rw [List.mem_reverse]
    exact List.mem_of_head? (by simpa [isAbsolute] using habsolute)
  obtain ⟨behind, above, hsplit, hfree⟩ := List.eq_append_cons_of_mem hslash
  have hpath : path.toList = above.reverse ++ '/' :: behind.reverse := by
    have := congrArg List.reverse hsplit
    simpa using this
  refine ⟨above.reverse, String.ofList behind.reverse, ⟨fun hnil => ?_, ?_⟩, ?_⟩
  · rw [String.toList_ofList] at hnil
    rw [hnil] at hpath
    exact hroot (h.2 (by rw [hpath]; simp))
  · rw [String.toList_ofList]
    simpa using hfree
  · rw [String.toList_ofList, hpath]

theorem joinPath_injective {parent name other : String}
    (h : joinPath parent name = joinPath parent other) : name = other := by
  have htoList := congrArg String.toList h
  rw [toList_joinPath, toList_joinPath] at htoList
  exact String.toList_inj.mp (List.append_cancel_left htoList)

theorem toList_joinPath_root (name : String) :
    (joinPath "/" name).toList = [] ++ '/' :: name.toList := by
  rw [toList_joinPath]
  rfl

theorem toList_joinPath_of_getLast? {parent : String} (h : parent.toList.getLast? ≠ some '/')
    (name : String) : (joinPath parent name).toList = parent.toList ++ '/' :: name.toList := by
  rw [toList_joinPath, if_neg h, List.append_assoc]
  rfl

theorem toList_two_slashes (name : String) :
    ("//" ++ name).toList = ['/'] ++ '/' :: name.toList := by
  rw [String.toList_append]
  rfl

end Text

namespace Store

variable {s : Store} {c d : Collection} {parent path : String}

/-- The collection is found at a name below the path. -/
def Holds (s : Store) (parent : String) (c : Collection) : Prop :=
  ∃ name, Text.IsName name ∧ s.find? (Text.joinPath parent name) = some c

/-- What is found at a path with a last name is what is stored there. -/
theorem Kept.find?_of_lastName (hs : s.Kept) {name : String} {above : List Char}
    (hname : Text.IsName name) (h : path.toList = above ++ '/' :: name.toList) :
    s.find? path = some c ↔ c ∈ s.collections ∧ c.path = path := by
  have hlast := Text.getLast?_of_lastName hname h
  constructor
  · intro hc
    have hpath := (path_of_find? hc).trans (Text.withoutTrailing_of_getLast? hlast)
    refine ⟨(find?_eq_some hc).resolve_right ?_, hpath⟩
    rintro rfl
    rw [← hpath] at hlast
    exact hlast rfl
  · rintro ⟨hc, rfl⟩
    exact hs.find?_self hc

/-- The members of a stored path, by the last slashes of their paths. -/
theorem Kept.mem_below (hs : s.Kept) (hkey : Text.withoutTrailing path = path) :
    c ∈ s.below path ↔ c ∈ s.collections ∧ ∃ above name, Text.IsName name ∧
      c.path.toList = above ++ '/' :: name.toList ∧
      path = if above = [] then "/" else String.ofList above := by
  unfold below
  simp only [hkey, List.mem_filter, beq_iff_eq]
  refine and_congr_right fun hc => ⟨fun hparent => ?_, ?_⟩
  · have hroot : c.path ≠ "/" := by
      intro heq
      rw [heq] at hparent
      cases hparent
    have hempty : c.path ≠ "" := by
      intro heq
      rw [heq] at hparent
      cases hparent
    obtain ⟨above, name, hname, hpath⟩ := Text.exists_lastName (hs.stored c hc) hroot hempty
    rw [Text.parentPath?_of_lastName hname hpath] at hparent
    exact ⟨above, name, hname, hpath, (Option.some.inj hparent).symm⟩
  · rintro ⟨above, name, hname, hpath, rfl⟩
    exact Text.parentPath?_of_lastName hname hpath

theorem Kept.nodup_below (hs : s.Kept) (path : String) : (s.below path).Nodup := by
  have hnodup : s.collections.Nodup := hs.ordered.imp fun hlt heq => hlt.ne (congrArg _ heq)
  exact hnodup.filter _

/-! ## The three kinds of paths -/

/-- A path without a slash at its end holds its members. -/
theorem Kept.mem_below_of_getLast? (hs : s.Kept) (hlast : path.toList.getLast? ≠ some '/')
    (hempty : path ≠ "") : c ∈ s.below path ↔ s.Holds path c := by
  have hjoin := Text.toList_joinPath_of_getLast? hlast
  rw [hs.mem_below (Text.withoutTrailing_of_getLast? hlast)]
  constructor
  · rintro ⟨hc, above, name, hname, hpath, hparent⟩
    have habove : path.toList = above := by
      by_cases hnil : above = []
      · rw [if_pos hnil] at hparent
        exact absurd (by rw [hparent]; decide) hlast
      · rw [if_neg hnil] at hparent
        rw [hparent, String.toList_ofList]
    have hsame : c.path = Text.joinPath path name :=
      String.toList_inj.mp (by rw [hpath, hjoin, habove])
    exact ⟨name, hname, (hs.find?_of_lastName hname (hjoin name)).mpr ⟨hc, hsame⟩⟩
  · rintro ⟨name, hname, hc⟩
    obtain ⟨hc, hpath⟩ := (hs.find?_of_lastName hname (hjoin name)).mp hc
    have hne : path.toList ≠ [] := fun hnil => hempty (String.toList_inj.mp hnil)
    exact ⟨hc, path.toList, name, hname, by rw [hpath, hjoin],
      by rw [if_neg hne, String.ofList_toList]⟩

/-- The root has besides what it holds the members behind two slashes. -/
theorem Kept.mem_below_root (hs : s.Kept) : c ∈ s.below "/" ↔
    s.Holds "/" c ∨ ∃ name, Text.IsName name ∧ s.find? ("//" ++ name) = some c := by
  have hone := Text.toList_joinPath_root
  have htwo := Text.toList_two_slashes
  rw [hs.mem_below Text.withoutTrailing_root]
  constructor
  · rintro ⟨hc, above, name, hname, hpath, hparent⟩
    -- one step up from a name is the root behind one slash and behind two
    by_cases hnil : above = []
    · have hsame : c.path = Text.joinPath "/" name :=
        String.toList_inj.mp (by rw [hpath, hone, hnil])
      exact .inl ⟨name, hname, (hs.find?_of_lastName hname (hone name)).mpr ⟨hc, hsame⟩⟩
    · rw [if_neg hnil] at hparent
      have habove : above = ['/'] := by
        rw [← String.toList_ofList (l := above), ← hparent]
        rfl
      have hsame : c.path = "//" ++ name := String.toList_inj.mp (by rw [hpath, htwo, habove])
      exact .inr ⟨name, hname, (hs.find?_of_lastName hname (htwo name)).mpr ⟨hc, hsame⟩⟩
  · rintro (⟨name, hname, hc⟩ | ⟨name, hname, hc⟩)
    · obtain ⟨hc, hpath⟩ := (hs.find?_of_lastName hname (hone name)).mp hc
      exact ⟨hc, [], name, hname, by rw [hpath, hone], rfl⟩
    · obtain ⟨hc, hpath⟩ := (hs.find?_of_lastName hname (htwo name)).mp hc
      exact ⟨hc, ['/'], name, hname, by rw [hpath, htwo], by decide⟩

/-- The empty path has no members. -/
theorem Kept.below_empty (hs : s.Kept) : s.below "" = [] := by
  refine List.eq_nil_iff_forall_not_mem.mpr fun c hc => ?_
  obtain ⟨-, above, name, -, -, hparent⟩ := (hs.mem_below (by decide)).mp hc
  by_cases hnil : above = []
  · simp [hnil] at hparent
  · rw [if_neg hnil] at hparent
    exact hnil (by simpa using congrArg String.toList hparent.symm)

/-- What lies behind two slashes is found at no name below the root. -/
theorem not_holds_of_two_slashes {name : String} (hname : Text.IsName name)
    (hc : s.find? ("//" ++ name) = some c) : ¬s.Holds "/" c := by
  rintro ⟨other, hother, hfound⟩
  have hone := Text.toList_joinPath_root other
  have htwo := Text.toList_two_slashes name
  have hpath : "//" ++ name = Text.joinPath "/" other := by
    rw [← Text.withoutTrailing_of_getLast? (Text.getLast?_of_lastName hname htwo),
      ← Text.withoutTrailing_of_getLast? (Text.getLast?_of_lastName hother hone),
      ← path_of_find? hc, ← path_of_find? hfound]
  rw [hpath, hone] at htwo
  have htail := (List.cons.inj htwo).2
  exact hother.2 (by rw [htail]; simp)

/-- Different names lead to different collections. -/
theorem eq_of_find?_joinPath {name other : String} (hname : Text.IsName name)
    (hother : Text.IsName other) (hc : s.find? (Text.joinPath parent name) = some c)
    (hc' : s.find? (Text.joinPath parent other) = some c) : name = other := by
  refine @Text.joinPath_injective parent _ _ ?_
  rw [← Text.withoutTrailing_joinPath hname, ← Text.withoutTrailing_joinPath hother,
    ← path_of_find? hc, ← path_of_find? hc']

/-- The members of a collection in a store that was built by adding collections, against what is
found at the names below its path; different names find different collections, and no member comes
twice. The members are what is found if the collection is neither the root nor stored at the empty
path. The root has those besides that are stored behind two slashes, and what is stored at the empty
path has none, although joining a name to that path finds the members of the root. So the two agree
if and only if nothing is stored behind two slashes, or nothing right below the root. -/
theorem below_holds (s : Store) (hbuilt : s.Built) (f : Collection)
    (hf : s.find? f.path = some f) :
    (s.below f.path).Nodup ∧
    (∀ c name other, Text.IsName name → Text.IsName other →
      s.find? (Text.joinPath f.path name) = some c →
      s.find? (Text.joinPath f.path other) = some c → name = other) ∧
    (f.path ≠ "/" → f.path ≠ "" → ∀ c, c ∈ s.below f.path ↔ s.Holds f.path c) ∧
    (f.path = "/" → ∀ c, c ∈ s.below f.path ↔
      s.Holds f.path c ∨ ∃ name, Text.IsName name ∧ s.find? ("//" ++ name) = some c) ∧
    (f.path = "" → s.below f.path = [] ∧ ∀ c, s.Holds f.path c ↔ s.Holds "/" c) ∧
    ((∀ c, c ∈ s.below f.path ↔ s.Holds f.path c) ↔
      (f.path = "/" → ∀ name, Text.IsName name → s.find? ("//" ++ name) = none) ∧
      (f.path = "" → ∀ name, Text.IsName name → s.find? (Text.joinPath "/" name) = none)) := by
  have hs := hbuilt.kept
  have hplain : f.path ≠ "/" → f.path ≠ "" → ∀ c, c ∈ s.below f.path ↔ s.Holds f.path c := by
    intro hroot hempty c
    refine hs.mem_below_of_getLast? (fun hlast => hroot ?_) hempty
    rcases find?_eq_some hf with hmem | heq
    · exact (hs.stored f hmem).2 hlast
    · rw [heq]
      rfl
  have hempty : ∀ c, s.Holds "" c ↔ s.Holds "/" c := fun c => Iff.rfl
  refine ⟨hs.nodup_below _, fun c name other hname hother => eq_of_find?_joinPath hname hother,
    hplain, fun hroot c => by rw [hroot]; exact hs.mem_below_root,
    fun heq => by rw [heq]; exact ⟨hs.below_empty, hempty⟩, ?_⟩
  by_cases hroot : f.path = "/"
  · rw [hroot]
    constructor
    · refine fun hall => ⟨fun _ name hname => ?_, fun heq => absurd heq (by decide)⟩
      by_contra hsome
      obtain ⟨c, hc⟩ := Option.ne_none_iff_exists'.mp hsome
      exact not_holds_of_two_slashes hname hc
        ((hall c).mp (hs.mem_below_root.mpr (.inr ⟨name, hname, hc⟩)))
    · refine fun hnone c => hs.mem_below_root.trans (or_iff_left ?_)
      rintro ⟨name, hname, hc⟩
      cases (hnone.1 rfl name hname).symm.trans hc
  by_cases hnil : f.path = ""
  · rw [hnil, hs.below_empty]
    constructor
    · refine fun hall => ⟨fun heq => absurd heq (by decide), fun _ name hname => ?_⟩
      by_contra hsome
      obtain ⟨c, hc⟩ := Option.ne_none_iff_exists'.mp hsome
      exact List.not_mem_nil ((hall c).mpr ((hempty c).mpr ⟨name, hname, hc⟩))
    · refine fun hnone c => iff_of_false List.not_mem_nil fun hc => ?_
      obtain ⟨name, hname, hc⟩ := (hempty c).mp hc
      cases (hnone.2 rfl name hname).symm.trans hc
  · exact iff_of_true (hplain hroot hnil) ⟨fun h => absurd h hroot, fun h => absurd h hnil⟩

/-! ## A calendar behind two slashes -/

/-- A folder with a calendar, and a calendar behind two slashes. -/
def slashedStore : Store :=
  empty.offerAll [.plain "/f" .folder, .plain "/f/a" .calendar, .plain "//b" .calendar]

/-- The folder holds its member. -/
theorem below_holds_slashed : slashedStore.find? "/f" = some (.plain "/f" .folder) ∧
    slashedStore.below "/f" = [.plain "/f/a" .calendar] ∧
    ∀ c, slashedStore.Holds "/f" c ↔ c = .plain "/f/a" .calendar := by
  have hfind : slashedStore.find? "/f" = some (.plain "/f" .folder) := by decide
  have hbelow : slashedStore.below "/f" = [.plain "/f/a" .calendar] := by decide
  obtain ⟨-, -, hplain, -⟩ := below_holds slashedStore ⟨_, rfl⟩ (.plain "/f" .folder) hfind
  have hmember : ∀ c, c ∈ slashedStore.below "/f" ↔ slashedStore.Holds "/f" c :=
    hplain (by decide) (by decide)
  refine ⟨hfind, hbelow, fun c => ?_⟩
  rw [← hmember, hbelow, List.mem_singleton]

/-- The calendar behind two slashes is a member of the root, and no name below the root finds it. -/
theorem below_root_slashed :
    slashedStore.find? "/" = some (.plain "/" .folder) ∧
      slashedStore.below "/" = [.plain "//b" .calendar, .plain "/f" .folder] ∧
      slashedStore.find? "/b" = none ∧ ¬slashedStore.Holds "/" (.plain "//b" .calendar) := by
  refine ⟨by decide, by decide, by decide, ?_⟩
  have hname : Text.IsName "b" := by
    unfold Text.IsName
    decide
  exact not_holds_of_two_slashes hname (by decide)

end Store

end CalendarQuery
