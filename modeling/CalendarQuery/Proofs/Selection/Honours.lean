import CalendarQuery.Proofs.Compiler
import CalendarQuery.Proofs.Selection.Resolve

/-!
# Which filters a virtual path imposes

Filters are imposed along the chain of a virtual path, where collections have them, and for the
aliases of the expansion below it. The folders and calendars of the expansion impose nothing.

* `Selection.Honours`: every collection on a route imposes its filter.
* `Selection.virtualPath_honours_iff`: when this is so.
-/

namespace CalendarQuery.Selection

open Compilation Expansion

variable {s : Selection} {narrow : Bool} {vpath : String}

/-- The expression attached to a collection compiles to the filter. -/
def Compiles (s : Selection) (c : Collection) (g : Filter) : Prop :=
  ∃ expression vpath m m', c.filter = some expression ∧
    (s.attached vpath c.path expression).outcome m = (.ok g, m')

/-- Every collection on a route that has a filter imposes it there. -/
def Honours (s : Selection) (route : List Passage) : Prop :=
  ∀ p ∈ route, p.collection.filter.isSome = true →
    ∃ g ∈ route.filterMap Passage.imposed, s.Compiles p.collection g

theorem compiles_of_imposes {p : Passage} (h : s.Imposes true vpath p)
    (hfilter : p.collection.filter.isSome = true) :
    ∃ g, p.imposed = some g ∧ s.Compiles p.collection g := by
  obtain ⟨expression, he⟩ := Option.isSome_iff_exists.mp hfilter
  simp only [Imposes, he] at h
  obtain ⟨g, m, m', hg, hcompile⟩ := h
  exact ⟨g, hg, expression, vpath, m, m', he, hcompile⟩

mutual

/-- The aliases on a route impose their filters. -/
theorem imposes_of_mem_routes (t : Expansion) (ht : t.Valid s narrow) {route : List Passage}
    (hroute : route ∈ t.routes) {p : Passage} (hp : p ∈ route)
    (hlink : p.collection.isAlias = true) : s.Imposes narrow p.collection.path p := by
  cases t with
  | calendar c =>
    obtain rfl := List.mem_singleton.mp hroute
    obtain rfl := List.mem_singleton.mp hp
    have hk : c.kind = .calendar := ht
    simp [Collection.isAlias, hk] at hlink
  | folder c members =>
    obtain ⟨rest, hrest, rfl⟩ := List.mem_map.mp hroute
    rcases List.mem_cons.mp hp with rfl | hp
    · have hk : c.kind = .folder := ht.1
      simp [Collection.isAlias, hk] at hlink
    · have hmem : rest ∈ routesEach members := by
        unfold orSelf at hrest
        split at hrest
        · obtain rfl := List.mem_singleton.mp hrest
          cases hp
        · exact hrest
      exact imposes_of_mem_routesEach members ht.2.2 hmem hp hlink
  | link c own target =>
    obtain ⟨rest, hrest, rfl⟩ := List.mem_map.mp hroute
    rcases List.mem_cons.mp hp with rfl | hp
    · exact ht.2.1
    · exact imposes_of_mem_routes target ht.2.2.2 hrest hp hlink
  | dangling c => cases hroute

theorem imposes_of_mem_routesEach (ts : List Expansion) (hts : ValidEach s narrow ts)
    {route : List Passage} (hroute : route ∈ routesEach ts) {p : Passage} (hp : p ∈ route)
    (hlink : p.collection.isAlias = true) : s.Imposes narrow p.collection.path p := by
  cases ts with
  | nil => cases hroute
  | cons t ts =>
    rcases List.mem_append.mp hroute with h | h
    · exact imposes_of_mem_routes t hts.1 h hp hlink
    · exact imposes_of_mem_routesEach ts hts.2 h hp hlink

end

/-- A virtual path imposes the filters of all collections that it passes through if and only if the
folders and calendars below the collection it names have filters that are imposed anyway. -/
theorem virtualPath_honours_iff (s : Selection) (vpath : String) (m m' : Memos) (f : Filter)
    (h : (s.virtualPath vpath).outcome m = (.ok f, m')) :
    ∃ (passed : List Passage) (t : Expansion), s.Resolution true vpath passed t ∧
      f.guarded = t.routes.map (fun route => selected (passed ++ route)) ∧
      ((∀ route ∈ t.routes, s.Honours (passed ++ route)) ↔
        ∀ route ∈ t.routes, ∀ p ∈ route.tail, p.collection.isAlias = false →
          p.collection.filter.isSome = true →
          ∃ g ∈ (passed ++ route).filterMap Passage.imposed, s.Compiles p.collection g) := by
  obtain ⟨passed, t, hres, -, hleaves⟩ := resolve_sound h
  refine ⟨passed, t, hres, hleaves, fun hall route hroute p hp _ hfilter => ?_,
    fun hcond route hroute p hp hfilter => ?_⟩
  · have hmem : p ∈ passed ++ route :=
      List.mem_append_right passed (List.mem_of_mem_tail hp)
    exact hall route hroute p hmem hfilter
  · -- a filter imposed at a collection of the way is imposed on the whole way
    have hown : ∀ q ∈ passed ++ route, ∀ v, s.Imposes true v q → q.collection.filter.isSome = true →
        ∃ g ∈ (passed ++ route).filterMap Passage.imposed, s.Compiles q.collection g := by
      intro q hq v himposes hq'
      obtain ⟨g, hg, hcompiles⟩ := compiles_of_imposes himposes hq'
      exact ⟨g, List.mem_filterMap.mpr ⟨q, hq, hg⟩, hcompiles⟩
    have hpassed : ∀ q ∈ passed, q.collection.filter.isSome = true →
        ∃ g ∈ (passed ++ route).filterMap Passage.imposed, s.Compiles q.collection g :=
      fun q hq => hown q (List.mem_append_left route hq) vpath (hres.imposes q hq)
    rcases List.mem_append.mp hp with hp | hp
    · exact hpassed p hp hfilter
    · by_cases hlink : p.collection.isAlias = true
      · exact hown p (List.mem_append_right passed hp) _
          (imposes_of_mem_routes t hres.valid hroute hp hlink) hfilter
      · obtain ⟨first, rest, rfl, hroot⟩ := exists_cons_of_mem_routes hroute
        rcases List.mem_cons.mp hp with rfl | hp
        · obtain ⟨steps, -, hwalked⟩ := hres.walked
          have hlast := hwalked.getLast?
          rw [List.getLast?_map] at hlast
          obtain ⟨last, hlast, heq⟩ := Option.map_eq_some_iff.mp hlast
          have hsame : last.collection = p.collection := heq.trans hroot.symm
          rw [← hsame] at hfilter ⊢
          exact hpassed last (List.mem_of_getLast? hlast) hfilter
        · exact hcond _ hroute p hp (by simpa using hlink) hfilter

/-! ## A calendar whose filter is passed over -/

/-- A calendar with a filter. -/
def staffCalendar : Collection :=
  ⟨"/f/c", .calendar, some "owner = \"a\"", none, none, true⟩

/-- The calendar in a folder. -/
def staffStore : Store := ⟨[.plain "/f" .folder, staffCalendar], [], []⟩

/-- A compiler over the folder. -/
def staffCompiler : Compiler := ⟨staffStore.hierarchy, .standard⟩

/-- The selection of its expressions. -/
def staffSelection : Selection := staffCompiler.selection false 16 []

theorem chain_staff : staffSelection.hierarchy.chain "/f" =
    .ok [⟨.plain "/" .folder, false⟩, ⟨.plain "/f" .folder, true⟩] := by
  have hfolder : staffStore.find? (Text.joinPath "/" "f") = some (.plain "/f" .folder) := by
    decide
  exact chain_single (by decide) (by decide) rfl (congrArg Except.ok hfolder) rfl

theorem children_staff : staffSelection.hierarchy.children "/f" = .ok [staffCalendar] := by
  have hbelow : staffStore.below "/f" = [staffCalendar] := by decide
  exact congrArg Except.ok hbelow

/-- The folder stands for the calendar, without the filter of the calendar. -/
theorem outcome_virtualPath_staff (m : Memos) : (staffSelection.virtualPath "/f").outcome m =
    (.ok (.and (some "/f") [.inCollection "/f/c"]), m) := by
  have hfresh : "/f" ∈ staffSelection.hierarchy.paths := by decide
  have hcalendars : ∀ d ∈ staffSelection.visible [staffCalendar], d.kind = .calendar ∧
      d.path ∈ Hierarchy.without staffSelection.hierarchy.paths "/f" := by decide
  have hexpand : staffSelection.expand true staffSelection.hierarchy.paths (.plain "/f" .folder) =
      return some (.inCollection "/f/c") :=
    expand_calendars (c := .plain "/f" .folder) hfresh rfl children_staff hcalendars
  have hresolving : "/f" ∉ staffSelection.resolving := by simp [staffSelection, Compiler.selection]
  exact outcome_resolve hresolving chain_staff (walk_single (by decide) rfl rfl rfl m)
    (by rw [hexpand]; rfl)

/-- The theorem at the folder. -/
theorem virtualPath_honours_iff_staff :
    (staffSelection.virtualPath "/f").outcome .empty =
        (.ok (.and (some "/f") [.inCollection "/f/c"]), .empty) ∧
      ∃ (passed : List Passage) (t : Expansion), staffSelection.Resolution true "/f" passed t ∧
        [("/f/c", [])] = t.routes.map (fun route => selected (passed ++ route)) ∧
        ((∀ route ∈ t.routes, staffSelection.Honours (passed ++ route)) ↔
          ∀ route ∈ t.routes, ∀ p ∈ route.tail, p.collection.isAlias = false →
            p.collection.filter.isSome = true →
            ∃ g ∈ (passed ++ route).filterMap Passage.imposed,
              staffSelection.Compiles p.collection g) :=
  ⟨outcome_virtualPath_staff .empty,
    virtualPath_honours_iff staffSelection "/f" .empty .empty _ (outcome_virtualPath_staff .empty)⟩

/-- The filter attached to the calendar compiles. -/
theorem compiles_staff : staffSelection.Compiles staffCalendar
    (.comparison (.single .owner) .equal (.text "a")) := by
  have hrestorable : (Filter.comparison (.single .owner) .equal (.text "a")).Restorable
      staffStore.hierarchy :=
    ⟨⟨PropertyPath.wellFormed_single rfl, rfl, by decide, by simp, fun h => by cases h⟩, rfl⟩
  obtain ⟨level, hs, hn, hd⟩ :=
    Grammar.exists_expression (c := staffCompiler.selection false 15 ["/f"]) hrestorable
  have htext : (Filter.comparison (.single .owner) .equal (.text "a")).text = "owner = \"a\"" := by
    decide
  rw [htext] at hs
  have hcompile := (Compiler.compileWithin_eq_ok (c := staffCompiler)).mpr
    ⟨by decide, level, hs, by rw [hn]; decide, hd .empty⟩
  refine ⟨_, "/f", .empty, .empty, rfl, ?_⟩
  exact mapError_eq_ok.mpr hcompile

/-- The only way that the folder selects anything goes through the calendar. -/
theorem mem_staffCalendar {passed : List Passage} {t : Expansion}
    (h : staffSelection.Resolution true "/f" passed t) :
    ∃ route ∈ t.routes, ∃ p ∈ route, p.collection = staffCalendar := by
  have hroot : t.root = .plain "/f" .folder := by
    obtain ⟨steps, hchain, before, last, after, hsteps, -, hlast, -, hroot⟩ := h.walked
    rw [chain_staff] at hchain
    rw [← Except.ok.inj hchain] at hsteps
    have hmem : last ∈ [⟨.plain "/" .folder, false⟩, ⟨.plain "/f" .folder, true⟩] := by
      rw [hsteps]; simp
    rw [hroot]
    simp only [List.mem_cons, List.not_mem_nil, or_false] at hmem
    rcases hmem with rfl | rfl
    · simp [Ends] at hlast
    · rfl
  have hvalid := h.valid
  match t with
  | .calendar c | .link c _ _ | .dangling c =>
    subst hroot
    simp [Valid, Collection.plain] at hvalid
  | .folder c members =>
    subst hroot
    obtain ⟨-, ⟨children, hchildren, hroots⟩, hmembers⟩ := hvalid
    rw [Collection.plain, children_staff] at hchildren
    rw [← Except.ok.inj hchildren] at hroots
    match members with
    | [] => cases hroots
    | t :: ts =>
      have hcalendar : t.root = staffCalendar := (List.cons.inj hroots).1.symm
      have hvalid := hmembers.1
      match t with
      | .calendar c =>
        refine ⟨[⟨.plain "/f" .folder, none⟩, ⟨c, none⟩], ?_, ⟨c, none⟩, by simp, hcalendar⟩
        simp [routes, routesEach, orSelf]
      | .folder c _ | .link c _ _ | .dangling c =>
        subst hcalendar
        simp [Valid, staffCalendar] at hvalid

/-- The folder selects the calendar, and does not impose the filter of the calendar. -/
theorem virtualPath_folder_not_honours :
    staffCompiler.filter "vpath = \"/f\"" false "" .empty =
        (.filter (.and (some "/f") [.inCollection "/f/c"]), .empty) ∧
      staffSelection.Compiles staffCalendar (.comparison (.single .owner) .equal (.text "a")) ∧
      ∀ (passed : List Passage) (t : Expansion), staffSelection.Resolution true "/f" passed t →
        (Filter.and (some "/f") [.inCollection "/f/c"]).guarded =
          t.routes.map (fun route => selected (passed ++ route)) →
        ¬∀ route ∈ t.routes, staffSelection.Honours (passed ++ route) := by
  refine ⟨?_, compiles_staff, fun passed t hres hleaves hall => ?_⟩
  · have hreads := Comparison.reads_virtualPath "/f" .done
    have htext : (Filter.equals (.single .vpath) "/f").text = "vpath = \"/f\"" := by
      decide
    rw [← TokenStream.ofString_text, htext] at hreads
    have hcompile : staffCompiler.comparing false (.virtualPaths ["/f"]) =
        staffSelection.virtualPath "/f" := compile_virtualPath "/f"
    rw [Compiler.filter_eq_filter, Compiler.outcome_compile_of_reads (by decide) hreads, hcompile]
    exact outcome_virtualPath_staff .empty
  · obtain ⟨route, hroute, p, hp, hcalendar⟩ := mem_staffCalendar hres
    have hfilter : p.collection.filter.isSome = true := by rw [hcalendar]; rfl
    obtain ⟨g, hg, -⟩ := hall route hroute p (List.mem_append_right passed hp) hfilter
    have hguarded : [("/f/c", [])] = t.routes.map fun route => selected (passed ++ route) := hleaves
    have hmem : selected (passed ++ route) ∈ [("/f/c", [])] := by
      rw [hguarded]
      exact List.mem_map_of_mem hroute
    have hnone : (passed ++ route).filterMap Passage.imposed = [] :=
      congrArg Prod.snd (List.mem_singleton.mp hmem)
    rw [hnone] at hg
    cases hg

end CalendarQuery.Selection
