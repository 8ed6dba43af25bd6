import CalendarQuery.Hierarchy.Store.Document
import CalendarQuery.Proofs.Hierarchy.Chain
import CalendarQuery.Proofs.Text.Slashed
import Mathlib.Data.List.Nodup

/-!
# Stores built collection by collection

A store to which collections were added one by one holds them in the order of their paths, no path
twice, and every alias has a target. What it answers about a path depends on the path only up to the
slashes at its end, with one exception: the root has the path `/`, and two slashes or more spell the
empty path, under which they are stored beside the root.

* `Store.offer`: a call that adds a collection or changes nothing.
* `Store.Kept`: what such calls keep; `Kept.offerAll` for a sequence of them.
* `Store.find?_add`, `Store.below_add`: the answers after a collection was added.
* `Store.Built`: the stores that such calls lead to.
* `Store.kept_offer`: all of this for any sequence of calls and the call after it.
-/

namespace CalendarQuery

namespace Collection

/-- The collection under the path where it is stored. -/
def asStored (c : Collection) : Collection := { c with path := Text.withoutTrailing c.path }

@[simp] theorem path_asStored (c : Collection) :
    c.asStored.path = Text.withoutTrailing c.path := rfl

@[simp] theorem isAlias_asStored (c : Collection) : c.asStored.isAlias = c.isAlias := rfl

@[simp] theorem target_asStored (c : Collection) : c.asStored.target = c.target := rfl

/-- An alias has a target. -/
def HasTarget (c : Collection) : Prop := c.isAlias = true → c.target.isSome = true

end Collection

namespace Store

/-! ## Collections in the order of their paths -/

/-- The collections stand in the order of their paths, no path twice. -/
def Ordered (cs : List Collection) : Prop := cs.Pairwise fun c d => c.path < d.path

theorem mem_insertByPath {c d : Collection} {cs : List Collection} :
    d ∈ insertByPath c cs ↔ d = c ∨ d ∈ cs := by
  induction cs with
  | nil => simp [insertByPath]
  | cons e cs ih =>
    rw [insertByPath]
    split
    · simp
    · rw [List.mem_cons, ih, List.mem_cons]
      exact or_left_comm

theorem ordered_insertByPath {c : Collection} {cs : List Collection} (hcs : Ordered cs)
    (hnew : ∀ d ∈ cs, d.path ≠ c.path) : Ordered (insertByPath c cs) := by
  induction cs with
  | nil => simp [insertByPath, Ordered]
  | cons d cs ih =>
    obtain ⟨hd, htail⟩ := List.pairwise_cons.mp hcs
    rw [insertByPath]
    split
    · rename_i hlt
      refine List.pairwise_cons.mpr ⟨fun e he => ?_, hcs⟩
      rcases List.mem_cons.mp he with rfl | he
      · exact hlt
      · exact hlt.trans (hd e he)
    · rename_i hge
      have hlt : d.path < c.path :=
        lt_of_le_of_ne (not_lt.mp hge) (hnew d List.mem_cons_self)
      refine List.pairwise_cons.mpr
        ⟨fun e he => ?_, ih htail fun e he => hnew e (List.mem_cons_of_mem d he)⟩
      rcases mem_insertByPath.mp he with rfl | he
      · exact hlt
      · exact hd e he

theorem Ordered.eq_of_path {cs : List Collection} (hcs : Ordered cs) {c d : Collection}
    (hc : c ∈ cs) (hd : d ∈ cs) (h : c.path = d.path) : c = d := by
  have hnodup : (cs.map Collection.path).Nodup :=
    List.pairwise_map.mpr (hcs.imp fun hlt => hlt.ne)
  exact List.inj_on_of_nodup_map hnodup hc hd h

theorem find?_insertByPath {c : Collection} {cs : List Collection}
    (hnew : ∀ d ∈ cs, d.path ≠ c.path) (path : String) :
    (insertByPath c cs).find? (fun d => d.path == path) =
      if path = c.path then some c else cs.find? fun d => d.path == path := by
  induction cs with
  | nil => simp [insertByPath, @eq_comm _ path]
  | cons d cs ih =>
    have ih := ih fun e he => hnew e (List.mem_cons_of_mem d he)
    rw [insertByPath]
    split
    · by_cases hpath : path = c.path
      · simp [hpath]
      · rw [if_neg hpath, List.find?_cons_of_neg]
        simpa using Ne.symm hpath
    · by_cases hd : d.path = path
      · have hne : path ≠ c.path := hd ▸ hnew d List.mem_cons_self
        rw [if_neg hne, List.find?_cons_of_pos (by simpa using hd),
          List.find?_cons_of_pos (by simpa using hd)]
      · rw [List.find?_cons_of_neg (by simpa using hd), ih,
          List.find?_cons_of_neg (by simpa using hd)]

/-- Some of the collections, after one was put in its place: it stands in its place among them if it
is one of those. -/
theorem filter_insertByPath {c : Collection} {cs : List Collection} (hcs : Ordered cs)
    (p : Collection → Bool) : (insertByPath c cs).filter p =
      if p c then insertByPath c (cs.filter p) else cs.filter p := by
  induction cs with
  | nil => by_cases hc : p c <;> simp [insertByPath, hc]
  | cons d cs ih =>
    obtain ⟨hd, htail⟩ := List.pairwise_cons.mp hcs
    have ih := ih htail
    rw [insertByPath]
    split
    · rename_i hlt
      by_cases hc : p c
      · have hfirst : ∀ ds : List Collection, (∀ e ∈ ds, c.path < e.path) →
            insertByPath c ds = c :: ds := by
          intro ds hds
          cases ds with
          | nil => rfl
          | cons e ds => rw [insertByPath, if_pos (hds e List.mem_cons_self)]
        rw [if_pos hc, List.filter_cons_of_pos hc, hfirst]
        intro e he
        rcases List.mem_cons.mp (List.mem_of_mem_filter he) with rfl | he
        · exact hlt
        · exact hlt.trans (hd e he)
      · rw [if_neg hc, List.filter_cons_of_neg hc]
    · rename_i hge
      by_cases hp : p d
      · rw [List.filter_cons_of_pos hp, ih, List.filter_cons_of_pos hp]
        by_cases hc : p c
        · rw [if_pos hc, if_pos hc, insertByPath, if_neg hge]
        · rw [if_neg hc, if_neg hc]
      · rw [List.filter_cons_of_neg hp, ih, List.filter_cons_of_neg hp]

/-! ## Calls that add collections -/

/-- A call that adds a collection. It changes nothing if the collection does not fit. -/
def offer (s : Store) (c : Collection) : Store :=
  match s.add c with
  | .ok s' => s'
  | .error _ => s

/-- Such calls one after the other. -/
def offerAll (s : Store) (cs : List Collection) : Store := cs.foldl offer s

/-- When a collection fits, and what the store is then. -/
theorem add_eq_ok {s s' : Store} {c : Collection} : s.add c = .ok s' ↔
    Text.isAbsolute c.path = true ∧ c.HasTarget ∧ s.entry? c.asStored.path = none ∧
      s' = { s with collections := insertByPath c.asStored s.collections } := by
  unfold add
  by_cases habsolute : Text.isAbsolute c.path = true
  swap
  · simp [habsolute]
  simp only [habsolute, Bool.not_true, Bool.false_eq_true, if_false, true_and]
  change (if c.asStored.isAlias && c.asStored.target.isNone then _
    else if (s.entry? c.asStored.path).isSome then _ else _) = _ ↔ _
  by_cases htarget : c.HasTarget
  · rw [if_neg (by
      intro h
      obtain ⟨halias, hnone⟩ := Bool.and_eq_true_iff.mp h
      have hsome := htarget halias
      rw [← Collection.target_asStored, Option.isNone_iff_eq_none.mp hnone] at hsome
      cases hsome)]
    cases hentry : s.entry? c.asStored.path with
    | none => simp [htarget, eq_comm, Collection.asStored]
    | some d => simp
  · rw [if_pos (by
      obtain ⟨halias, hnone⟩ := Classical.not_imp.mp htarget
      simp [halias, Option.not_isSome_iff_eq_none.mp hnone])]
    simp [htarget]

/-- What calls that add collections keep. -/
structure Kept (s : Store) : Prop where
  ordered : Ordered s.collections
  stored : ∀ c ∈ s.collections, Text.IsStored c.path
  targets : ∀ c ∈ s.collections, c.HasTarget

theorem kept_empty : empty.Kept where
  ordered := List.Pairwise.nil
  stored := by simp [empty]
  targets := by simp [empty]

variable {s s' : Store} {c : Collection}

theorem entry_eq_none {path : String} :
    s.entry? path = none ↔ ∀ d ∈ s.collections, d.path ≠ path := by
  unfold entry?
  simp [List.find?_eq_none]

theorem Kept.add (hs : s.Kept) (h : s.add c = .ok s') : s'.Kept := by
  obtain ⟨habsolute, htarget, hnew, rfl⟩ := add_eq_ok.mp h
  refine ⟨ordered_insertByPath hs.ordered (entry_eq_none.mp hnew), fun d hd => ?_, fun d hd => ?_⟩
  · rcases mem_insertByPath.mp hd with rfl | hd
    · exact Text.isStored_withoutTrailing habsolute
    · exact hs.stored d hd
  · rcases mem_insertByPath.mp hd with rfl | hd
    · exact htarget
    · exact hs.targets d hd

theorem offer_of_ok (h : s.add c = .ok s') : s.offer c = s' := by
  rw [offer, h]

theorem offer_of_error {cause : StoreError} (h : s.add c = .error cause) : s.offer c = s := by
  rw [offer, h]

theorem Kept.offer (hs : s.Kept) (c : Collection) : (s.offer c).Kept := by
  cases h : s.add c with
  | error cause => rwa [offer_of_error h]
  | ok s' => rw [offer_of_ok h]; exact hs.add h

theorem Kept.offerAll (hs : s.Kept) (cs : List Collection) : (s.offerAll cs).Kept := by
  induction cs generalizing s with
  | nil => exact hs
  | cons c cs ih => exact ih (hs.offer c)

/-! ## Where collections come from -/

/-- A call leaves a collection at a path if there was one before, or the call fits there. -/
theorem exists_mem_offer {path : String} : (∃ d ∈ (s.offer c).collections, d.path = path) ↔
    (∃ d ∈ s.collections, d.path = path) ∨
      (Text.isAbsolute c.path = true ∧ c.HasTarget ∧ c.asStored.path = path) := by
  cases h : s.add c with
  | ok s' =>
    obtain ⟨habsolute, htarget, -, rfl⟩ := add_eq_ok.mp h
    rw [offer_of_ok h]
    constructor
    · rintro ⟨d, hd, rfl⟩
      rcases mem_insertByPath.mp hd with rfl | hd
      · exact .inr ⟨habsolute, htarget, rfl⟩
      · exact .inl ⟨d, hd, rfl⟩
    · rintro (⟨d, hd, rfl⟩ | ⟨-, -, rfl⟩)
      · exact ⟨d, mem_insertByPath.mpr (.inr hd), rfl⟩
      · exact ⟨_, mem_insertByPath.mpr (.inl rfl), rfl⟩
  | error cause =>
    rw [offer_of_error h]
    refine ⟨.inl, ?_⟩
    rintro (hd | ⟨habsolute, htarget, rfl⟩)
    · exact hd
    · by_contra hnone
      have hnew : s.entry? c.asStored.path = none :=
        entry_eq_none.mpr fun d hd heq => hnone ⟨d, hd, heq⟩
      have hok := add_eq_ok.mpr ⟨habsolute, htarget, hnew, rfl⟩
      cases h.symm.trans hok

theorem exists_mem_offerAll {cs : List Collection} {path : String} :
    (∃ d ∈ (s.offerAll cs).collections, d.path = path) ↔ (∃ d ∈ s.collections, d.path = path) ∨
      ∃ c ∈ cs, Text.isAbsolute c.path = true ∧ c.HasTarget ∧ c.asStored.path = path := by
  induction cs generalizing s with
  | nil => simp [offerAll]
  | cons c cs ih =>
    rw [offerAll, List.foldl_cons]
    refine ih.trans ?_
    rw [exists_mem_offer, List.exists_mem_cons_iff, or_assoc]

/-! ## Answers -/

theorem find?_eq (path : String) : s.find? path =
    (s.entry? (Text.withoutTrailing path)).or
      (if Text.withoutTrailing path = "/" then some (.plain "/" .folder) else none) := by
  unfold find?
  simp only
  cases s.entry? (Text.withoutTrailing path) <;> rfl

theorem exists_root (s : Store) : ∃ root, s.find? "/" = some root := by
  rw [find?_eq, Text.withoutTrailing_root]
  cases s.entry? "/" with
  | none => exact ⟨_, rfl⟩
  | some root => exact ⟨root, rfl⟩

theorem path_of_find? {path : String} {c : Collection} (h : s.find? path = some c) :
    c.path = Text.withoutTrailing path := by
  rw [find?_eq] at h
  cases hentry : s.entry? (Text.withoutTrailing path) with
  | none =>
    rw [hentry, Option.none_or] at h
    split at h
    · rename_i hroot
      cases h
      exact hroot.symm
    · cases h
  | some d =>
    rw [hentry, Option.some_or] at h
    cases h
    simpa using List.find?_some hentry

theorem entry_add (h : s.add c = .ok s') (path : String) : s'.entry? path =
    if path = c.asStored.path then some c.asStored else s.entry? path := by
  obtain ⟨-, -, hnew, rfl⟩ := add_eq_ok.mp h
  exact find?_insertByPath (entry_eq_none.mp hnew) path

/-- A collection that was added is found by every spelling of its path, and what the other paths
lead to stays. -/
theorem find?_add (h : s.add c = .ok s') (path : String) : s'.find? path =
    if Text.withoutTrailing path = Text.withoutTrailing c.path then some c.asStored
    else s.find? path := by
  rw [find?_eq, entry_add h, Collection.path_asStored]
  split
  · rw [Option.some_or]
  · rw [find?_eq]

/-- A collection that was added takes its place below its parent, and nowhere else. -/
theorem below_add (hs : s.Kept) (h : s.add c = .ok s') (path : String) : s'.below path =
    if Text.parentPath? (Text.withoutTrailing c.path) = some (Text.withoutTrailing path) then
      insertByPath c.asStored (s.below path)
    else s.below path := by
  obtain ⟨-, -, -, rfl⟩ := add_eq_ok.mp h
  unfold below
  simp only [filter_insertByPath hs.ordered, beq_iff_eq, Collection.path_asStored]

/-- What is stored is found where it is stored. -/
theorem Kept.find?_self (hs : s.Kept) (hc : c ∈ s.collections) : s.find? c.path = some c := by
  rw [find?_eq, (hs.stored c hc).withoutTrailing_eq]
  cases hentry : s.entry? c.path with
  | none => exact absurd rfl (entry_eq_none.mp hentry c hc)
  | some d =>
    obtain rfl := hs.ordered.eq_of_path (List.mem_of_find?_eq_some hentry) hc
      (by simpa using List.find?_some hentry)
    rfl

/-! ## Built stores -/

/-- The collections are those that calls lead to; categories and views are any. -/
def Built (s : Store) : Prop := ∃ cs, s.collections = (empty.offerAll cs).collections

theorem Built.kept (h : s.Built) : s.Kept := by
  obtain ⟨cs, heq⟩ := h
  obtain ⟨hordered, hstored, htargets⟩ := kept_empty.offerAll cs
  exact ⟨by rwa [heq], by rwa [heq], by rwa [heq]⟩

theorem offerAll_of_addAll {cs : List Collection} (h : s.addAll cs = .ok s') :
    s.offerAll cs = s' := by
  induction cs generalizing s with
  | nil => cases h; rfl
  | cons c cs ih =>
    rw [addAll] at h
    split at h
    · cases h
    · rename_i s₁ hadd
      rw [offerAll, List.foldl_cons, offer_of_ok hadd]
      exact ih h

/-- The store that a document describes is built. -/
theorem built_of_ofDocument {text : String} (h : ofDocument text = .ok s) : s.Built := by
  unfold ofDocument at h
  split at h
  · cases h
  · rename_i cs categories views hlisted
    split at h
    · cases h
    · rename_i s₁ hadd
      cases h
      exact ⟨cs, by rw [offerAll_of_addAll hadd]⟩

/-- A collection as the store answers with it, perhaps by way of an alias. -/
def Knows (s : Store) (c : Collection) : Prop :=
  ∃ origin, s.find? c.path = some { c with origin := origin }

theorem Kept.find?_of_find? (hs : s.Kept) {path : String} (h : s.find? path = some c) :
    s.find? c.path = some c := by
  rcases find?_eq_some h with hc | rfl
  · exact hs.find?_self hc
  · rw [find?_eq] at h ⊢
    rcases hentry : s.entry? (Text.withoutTrailing path) with _ | d
    · rw [hentry, Option.none_or] at h
      split at h
      · rename_i hroot
        rw [hroot] at hentry
        change (s.entry? (Text.withoutTrailing "/")).or _ = _
        rw [Text.withoutTrailing_root, hentry]
        rfl
      · cases h
    · rw [hentry, Option.some_or] at h
      cases h
      have hd := List.mem_of_find?_eq_some hentry
      rw [← find?_eq]
      exact hs.find?_self hd

theorem Kept.answers (hs : s.Kept) : s.hierarchy.Answers s.Knows where
  collection h := ⟨_, hs.find?_of_find? (Except.ok.inj h)⟩
  children h c hc := by
    obtain rfl := Except.ok.inj h
    exact ⟨c.origin, hs.find?_self (List.mem_of_mem_filter hc)⟩
  origin _ h := h

/-! ## Calls and answers -/

/-- What calls that add collections lead to, whether they were accepted or rejected, and what one
more call `c` does.

The collections have absolute paths without a slash at the end, except for the root and for the
empty path, under which collections are stored whose paths are made of two slashes or more. Aliases
have targets, every collection is found under its path, and no two collections have paths that
differ only in the slashes at the end, except for the root and the empty path.

A rejected call changes nothing. An accepted one changes the answers for the spellings of the path,
and the list of the collections below its parent. The root is there even if it was not added; two
slashes or more do not spell it. -/
theorem kept_offer (cs : List Collection) (c : Collection) :
    let s := empty.offerAll cs
    (∀ d ∈ s.collections, (Text.isAbsolute d.path = true ∨ d.path = "") ∧
      (d.path.toList.getLast? = some '/' → d.path = "/") ∧
      (d.isAlias = true → d.target.isSome = true) ∧ s.find? d.path = some d) ∧
    ((∃ d ∈ s.collections, d.path = "") ↔
      ∃ d ∈ cs, (d.isAlias = true → d.target.isSome = true) ∧ ∃ n, d.path = Text.slashes (n + 2)) ∧
    (∀ d ∈ s.collections, ∀ e ∈ s.collections,
      Text.dropTrailing d.path.toList = Text.dropTrailing e.path.toList →
      d = e ∨ (d.path = "/" ∧ e.path = "") ∨ (d.path = "" ∧ e.path = "/")) ∧
    (∀ cause, s.add c = .error cause → s.offer c = s) ∧
    (∀ s', s.add c = .ok s' → s.offer c = s' ∧
      (∀ n, (c.path = "/" → n = 0) →
        s'.find? (c.path ++ Text.slashes n) = some c.asStored) ∧
      (∀ path, Text.withoutTrailing path ≠ Text.withoutTrailing c.path →
        s'.find? path = s.find? path) ∧
      (∀ path, s'.below path =
        if Text.parentPath? (Text.withoutTrailing c.path) = some (Text.withoutTrailing path) then
          insertByPath c.asStored (s.below path)
        else s.below path) ∧
      s'.categories = s.categories ∧ s'.views = s.views) ∧
    ((∀ d ∈ s.collections, d.path ≠ "/") → s.find? "/" = some (.plain "/" .folder)) ∧
    ∀ n, s.find? (Text.slashes (n + 2)) = s.entry? "" := by
  intro s
  have hs : s.Kept := kept_empty.offerAll cs
  refine ⟨fun d hd => ⟨(hs.stored d hd).1.symm, (hs.stored d hd).2, hs.targets d hd,
      hs.find?_self hd⟩, ?_, fun d hd e he heq => ?_, fun cause h => offer_of_error h,
    fun s' h => ⟨offer_of_ok h, fun n hn => ?_, fun path hne => ?_, below_add hs h, ?_⟩, ?_, ?_⟩
  · have hslashes : ∀ d : Collection,
        (Text.isAbsolute d.path = true ∧ d.HasTarget ∧ d.asStored.path = "") ↔
          d.HasTarget ∧ ∃ n, d.path = Text.slashes (n + 2) := by
      intro d
      constructor
      · rintro ⟨habsolute, htarget, hempty⟩
        exact ⟨htarget, (Text.withoutTrailing_eq_empty habsolute).mp hempty⟩
      · rintro ⟨htarget, n, hn⟩
        have habsolute : Text.isAbsolute d.path = true := by
          rw [hn, Text.isAbsolute, Text.toList_slashes]
          rfl
        exact ⟨habsolute, htarget, (Text.withoutTrailing_eq_empty habsolute).mpr ⟨n, hn⟩⟩
    refine exists_mem_offerAll.trans ?_
    simp only [hslashes]
    simp [empty, Collection.HasTarget]
  · exact ((hs.stored d hd).eq_or (hs.stored e he) heq).imp_left (hs.ordered.eq_of_path hd he)
  · obtain ⟨habsolute, -⟩ := add_eq_ok.mp h
    rw [find?_add h, if_pos]
    by_cases hroot : c.path = "/"
    · rw [hn hroot, Text.slashes, List.replicate_zero, String.ofList_nil, String.append_empty]
    · exact Text.withoutTrailing_append_slashes habsolute hroot n
  · rw [find?_add h, if_neg hne]
  · obtain ⟨-, -, -, rfl⟩ := add_eq_ok.mp h
    exact ⟨rfl, rfl⟩
  · intro hnone
    rw [find?_eq, Text.withoutTrailing_root, entry_eq_none.mpr hnone]
    rfl
  · intro n
    have habsolute : Text.isAbsolute (Text.slashes (n + 2)) = true := by
      rw [Text.isAbsolute, Text.toList_slashes]
      rfl
    rw [find?_eq, (Text.withoutTrailing_eq_empty habsolute).mpr ⟨n, rfl⟩, if_neg (by decide),
      Option.or_none]

/-- Two slashes lead to a path that is not absolute, and they do not spell the root. -/
theorem offerAll_two_slashes :
    (empty.offerAll [.plain "//" .calendar]).collections = [.plain "" .calendar] ∧
      Text.isAbsolute "" = false ∧
      empty.find? "//" = none ∧ empty.find? "/" = some (.plain "/" .folder) := by
  decide

end Store

end CalendarQuery
