import CalendarQuery.Proofs.Compiler.Stable

/-!
# What attached filters leave alone

A virtual path gives a named group: the filters imposed along its chain, and last what its target
expands to. The filters attached to the collections below the target stand in named groups inside
that. Without all of them it is the filter of the collection path of the same name.

* `Compiler.AsksNarrowed`: the texts that ask for a virtual path.
* `Selection.virtualPath_target`: the parts of a resolved virtual path, over any hierarchy.
* `Compiler.filter_virtualPath_covers`: the collections it selects are those of the collection path.
-/

namespace CalendarQuery

namespace Selection

open Compilation Expansion

variable {s s' : Selection} {vpath : String} {m m' : Memos} {f : Filter}

/-- A virtual path that resolves is a group of the filters imposed along its chain and of the
expansion of its target. Without attached filters the path resolves to the same collections. -/
theorem virtualPath_target (hs : Agrees s s') (hresolving : vpath ∉ s'.resolving)
    (h : (s.virtualPath vpath).outcome m = (.ok f, m')) :
    ∃ (passed : List Passage) (t : Expansion) (inner g : Filter),
      s.Resolution true vpath passed t ∧
      f = .and (some (t.root.origin.getD t.root.path))
        (passed.filterMap Passage.imposed ++ [inner]) ∧
      inner.guarded = t.routes.map selected ∧
      (∀ m, (s'.collectionPath vpath).outcome m = (.ok g, m)) ∧ g.leaves = inner.leaves := by
  obtain ⟨-, g, hg, hleaves⟩ := resolve_bare hs hresolving h
  unfold virtualPath resolve at h
  split at h
  · cases h
  obtain ⟨steps, m₁, h₁, h⟩ := bind_eq_ok.mp h
  obtain ⟨⟨filters, target⟩, m₂, h₂, h⟩ := bind_eq_ok.mp h
  cases target with
  | none => cases h
  | some target =>
    obtain ⟨o, m₃, h₃, h⟩ := bind_eq_ok.mp h
    cases o with
    | none => cases h
    | some inner =>
      obtain ⟨rfl, -⟩ := Compilation.pure_eq_ok.mp h
      obtain ⟨hchain, -⟩ := chain_eq_ok.mp h₁
      obtain ⟨passed, hwalked, himposes, rfl⟩ := walk_sound h₂
      obtain ⟨t, rfl, hvalid, -, -, hroutes⟩ := expand_sound s true s.hierarchy.paths h₃
      rw [Option.toList_some, List.flatMap_singleton] at hroutes
      rw [Filter.leaves_and] at hleaves
      exact ⟨passed, t, inner, g, ⟨⟨steps, hchain, hwalked⟩, himposes, hvalid⟩, rfl, hroutes, hg,
        hleaves⟩

end Selection

namespace Compiler

open Compilation Selection

variable {c : Compiler} {explicit : Bool} {path text : String}

/-- The text is a comparison that asks for the virtual path. -/
def AsksNarrowed (text path : String) : Prop :=
  Reader.Reads Comparison.readNext (TokenStream.ofString text) (.virtualPaths [path]) .done

theorem asksNarrowed_text (path : String) :
    AsksNarrowed (Filter.equals (.single .vpath) path).text path := by
  have hreads := Comparison.reads_virtualPath path .done
  rwa [← TokenStream.ofString_text] at hreads

theorem outcome_compile_of_asksNarrowed (hlength : c.limits.admits text = true)
    (h : AsksNarrowed text path) (m : Memos) : (c.compile explicit text).outcome m =
      ((c.selection explicit c.limits.maxAliasDepth []).virtualPath path).outcome m := by
  rw [outcome_compile_of_reads hlength h, comparing, Selection.compile_virtualPath]

/-- Where a virtual path is a filter, the collection path of the same name is one, whatever the
memos. The filter of the virtual path is a named group of the filters imposed along the chain, and
last of the filter of its target, in which each route below the target ends in one leaf under the
filters imposed on the way. These leaves in order, with no filter on the way, are the filter of the
collection path. -/
theorem filter_virtualPath_covers (store : Store) (hstore : store.Built) (limits : Limits)
    (explicit : Bool) (path text text' source : String) (m m' : Memos) (f : Filter)
    (hasks : AsksNarrowed text path) (hasks' : Asks text' path)
    (hlength : limits.admits text' = true)
    (hf : (Compiler.mk store.hierarchy limits).filter text explicit source m = (.filter f, m')) :
    let c : Compiler := ⟨store.hierarchy, limits⟩
    ∃ (passed : List Passage) (t : Expansion) (inner g : Filter),
      (c.selection explicit limits.maxAliasDepth []).Resolution true path passed t ∧
      f = .and (some (t.root.origin.getD t.root.path))
        (passed.filterMap Passage.imposed ++ [inner]) ∧
      inner.guarded = t.routes.map Expansion.selected ∧
      (∀ source' m₁, c.filter text' explicit source' m₁ = (.filter g, m₁)) ∧
      g.leaves = inner.leaves ∧ Filter.selecting inner.leaves = some g := by
  intro c
  let s := c.selection explicit limits.maxAliasDepth []
  have hresolving : path ∉ s.resolving := by simp [s, selection]
  have hcompile := filter_eq_filter.mp hf
  obtain ⟨hadmits, -⟩ := compileWithin_eq_ok.mp hcompile
  rw [outcome_compile_of_asksNarrowed hadmits hasks] at hcompile
  have hagrees : Agrees s s := ⟨rfl, rfl⟩
  obtain ⟨passed, t, inner, g, hres, hparts, hroutes, hg, hleaves⟩ :=
    virtualPath_target hagrees hresolving hcompile
  have hfilter : ∀ source' m₁, c.filter text' explicit source' m₁ = (.filter g, m₁) := by
    intro source' m₁
    rw [filter_eq_filter, outcome_compile_of_asks hlength hasks']
    exact hg m₁
  obtain ⟨-, paths, -, hselecting⟩ :=
    (filter_of_asks hstore.kept hlength hasks').mp (hfilter source m)
  refine ⟨passed, t, inner, g, hres, hparts, hroutes, hfilter, hleaves, ?_⟩
  rw [← hleaves, Filter.leaves_of_selecting hselecting, hselecting]

/-! ## A folder with a narrowed alias -/

/-- An alias of a calendar, with an attached filter. -/
def annexAlias : Collection :=
  { Collection.plain "/f/a" .link with filter := some "owner = \"a\"", target := some "/c" }

/-- The calendar, and a folder with the alias. -/
def annexStore : Store :=
  Store.empty.offerAll [.plain "/c" .calendar, .plain "/f" .folder, annexAlias]

/-- What is attached to the alias. -/
def annexGuard : Filter := .comparison (.single .owner) .equal (.text "a")

/-- What the folder selects. -/
def annexFilter : Filter := .and (some "/f") [.and (some "/f/a") [annexGuard, .inCollection "/c"]]

/-- The selection of an expression over the folder. -/
def annexSelection : Selection :=
  (Compiler.mk annexStore.hierarchy .standard).selection false 16 []

theorem attached_annex (m : Memos) :
    (annexSelection.attached "/f/a" "/f/a" "owner = \"a\"").outcome m = (.ok annexGuard, m) := by
  let c : Compiler := ⟨annexStore.hierarchy, .standard⟩
  have hrestorable : annexGuard.Restorable annexStore.hierarchy :=
    ⟨⟨PropertyPath.wellFormed_single rfl, rfl, by decide, by simp, fun h => by cases h⟩, rfl⟩
  obtain ⟨level, hspells, hnesting, hdenote⟩ :=
    Grammar.exists_expression (c := c.selection false 15 ["/f/a"]) hrestorable
  have htext : annexGuard.text = "owner = \"a\"" := by decide
  rw [htext] at hspells
  have hcompile := (compileWithin_eq_ok (c := c)).mpr
    ⟨by decide, level, hspells, by rw [hnesting]; decide, hdenote m⟩
  exact mapError_eq_ok.mpr hcompile

theorem chain_annex : annexSelection.hierarchy.chain "/f" =
    .ok [⟨.plain "/" .folder, false⟩, ⟨.plain "/f" .folder, true⟩] := by
  have hroot : annexStore.find? "/" = some (.plain "/" .folder) := by decide
  have hfolder : annexStore.find? (Text.joinPath "/" "f") = some (.plain "/f" .folder) := by
    decide
  exact chain_single (by decide) (by decide) (congrArg Except.ok hroot)
    (congrArg Except.ok hfolder) rfl

theorem outcome_virtualPath_annex (m : Memos) :
    (annexSelection.virtualPath "/f").outcome m = (.ok annexFilter, m) := by
  have hbelow : annexStore.below "/f" = [annexAlias] := by decide
  have htarget : annexStore.find? "/c" = some (.plain "/c" .calendar) := by decide
  have hown : (annexSelection.own true "/f/a" annexAlias).outcome m =
      (.ok (some annexGuard), m) := by
    rw [own_some (c := annexAlias) rfl, outcome_map]
    exact congrArg (fun r => (r.1.map some, r.2)) (attached_annex m)
  have hcalendar : ∀ fresh : List String, "/c" ∈ fresh →
      (annexSelection.expand true fresh (.plain "/c" .calendar)).outcome m =
        (.ok (some (.inCollection "/c")), m) := by
    intro fresh hm
    rw [expand_calendar (c := .plain "/c" .calendar) hm rfl]
    rfl
  have hlink : (annexSelection.expand true (Hierarchy.without annexStore.paths "/f")
      annexAlias).outcome m =
        (.ok (some (.and (some "/f/a") [annexGuard, .inCollection "/c"])), m) :=
    (expand_link_eq_ok (by decide) rfl).mpr
      ⟨_, m, hown, .inr ⟨"/c", _, _, rfl, congrArg Except.ok htarget, hcalendar _ (by decide), rfl⟩⟩
  have hmembers : (annexSelection.expandEach true (Hierarchy.without annexStore.paths "/f")
      (annexSelection.visible [annexAlias])).outcome m =
        (.ok [.and (some "/f/a") [annexGuard, .inCollection "/c"]], m) := by
    change (annexSelection.expandEach true _ [annexAlias]).outcome m = _
    rw [expandEach_cons, outcome_bind_of_ok hlink, expandEach]
    rfl
  have hexpand : (annexSelection.expand true annexStore.paths (.plain "/f" .folder)).outcome m =
      (.ok (some (.and (some "/f/a") [annexGuard, .inCollection "/c"])), m) :=
    (expand_folder_eq_ok (by decide) rfl).mpr
      ⟨[annexAlias], _, congrArg Except.ok hbelow, hmembers, rfl⟩
  have hresolving : "/f" ∉ annexSelection.resolving := by simp [annexSelection, selection]
  exact outcome_resolve hresolving chain_annex (walk_single (by decide) rfl rfl rfl m) hexpand

/-- The virtual path of the folder is narrowed, and the collection path is the calendar. -/
theorem filter_virtualPath_covers_annex :
    let c : Compiler := ⟨annexStore.hierarchy, .standard⟩
    c.filter (Filter.equals (.single .vpath) "/f").text false "" .empty =
        (.filter annexFilter, .empty) ∧
      c.filter (Filter.inCollection "/f").text false "" .empty =
        (.filter (.inCollection "/c"), .empty) := by
  intro c
  have hcompile : (c.compile false (Filter.equals (.single .vpath) "/f").text).outcome .empty =
      (.ok annexFilter, .empty) := by
    rw [outcome_compile_of_asksNarrowed (by decide) (asksNarrowed_text "/f")]
    exact outcome_virtualPath_annex .empty
  have hf : c.filter (Filter.equals (.single .vpath) "/f").text false "" .empty =
      (.filter annexFilter, .empty) := filter_eq_filter.mpr hcompile
  obtain ⟨passed, t, inner, g, -, hparts, -, hg, hleaves, hselecting⟩ :=
    filter_virtualPath_covers annexStore ⟨_, rfl⟩ .standard false "/f" _ _ "" .empty .empty _
      (asksNarrowed_text "/f") (asks_text "/f") (by decide) hf
  have hinner : inner.leaves = ["/c"] := by
    have hall := congrArg Filter.leaves hparts
    rw [Filter.leaves_and] at hall
    exact hall.symm.trans rfl
  rw [hinner] at hselecting
  obtain rfl := Option.some.inj hselecting
  exact ⟨hf, hg "" .empty⟩

end Compiler

end CalendarQuery
