import CalendarQuery.Proofs.CommandLine.Place

/-!
# Runs that set a key

A run that sets a key reads the profile, changes it, and writes it back. Where folders can be made
and files can be written, it does all of this or leaves the file as it is.

* `Setting`: a run that sets a key; `Setting.ofWords`: there is one for any key and value.
* `FileAt.run_cases`: what one run does to the file.
* `FileAt.exchange`: runs that set different keys may be exchanged.
* `FileAt.settings_faithful`: what holds of any run after any others.
-/

namespace CalendarQuery.CommandLine

variable {σ : Type} {path : String} {files : Files (StateM σ)}

/-- A run that sets a key of the profile at a path, unless its arguments are misused or nothing
gives that path. -/
structure Setting (path : String) where
  environment : Environment
  args : List String
  key : String
  value : String
  asks : ∀ r, Request.ofArguments args = .ok r → r.command = .set key value ∧
    ∀ place, profilePath environment r.config = some place → place = path
  misused : ∀ stop, Request.ofArguments args = .error stop → stop = .misuse

namespace Setting

/-- The arguments are understood and give a place for the profile. -/
def InOrder (c : Setting path) : Prop :=
  ∃ r, Request.ofArguments c.args = .ok r ∧ (profilePath c.environment r.config).isSome

/-- The report of the run. -/
def report (c : Setting path) (files : Files (StateM σ)) (s : σ) : Report :=
  ((run files c.environment c.args).run s).1

/-- The state after the run. -/
def after (c : Setting path) (files : Files (StateM σ)) (s : σ) : σ :=
  ((run files c.environment c.args).run s).2

/-- The state after runs, one after the other. -/
def afterAll (files : Files (StateM σ)) (s : σ) (cs : List (Setting path)) : σ :=
  cs.foldl (fun s c => c.after files s) s

end Setting

theorem ofArguments_words (key value : String) :
    Request.ofArguments ["config", "set", "--", key, value] =
      .ok ⟨.set key value, false, false, true, none⟩ := by
  have hconfig : Form.child? .program "config" = some .config := by decide
  have hset : Form.child? .config "set" = some .configSet := by decide
  have hdashes : Form.child? .configSet "--" = none := by decide
  simp only [Request.ofArguments, readArguments, readLevels, readLevels.readFurther, Level.start,
    Level.isWaiting, hconfig, hset, hdashes]
  rfl

/-- The run for any words, with the place of the profile in the environment. -/
def Setting.ofWords (path key value : String) : Setting path where
  environment := ⟨fun name => if name = "CFQ_CONFIG" then some path else none, none⟩
  args := ["config", "set", "--", key, value]
  key := key
  value := value
  asks r hr := by
    rw [ofArguments_words] at hr
    cases hr
    exact ⟨rfl, fun place hplace => by cases hplace; rfl⟩
  misused stop hstop := by
    rw [ofArguments_words] at hstop
    cases hstop

theorem Setting.inOrder_ofWords (path key value : String) : (ofWords path key value).InOrder :=
  ⟨_, ofArguments_words key value, rfl⟩

/-- The profile that a file holds. -/
def loaded (files : Files (StateM σ)) (path : String) (s : σ) : Except ProfileError Profile :=
  ((loadProfile files path).run s).1

/-- A request for a key goes to the file of the profile, if there is a place for it. -/
theorem execute_set (files : Files (StateM σ)) (e : Environment) {r : Request} {key value : String}
    (h : r.command = .set key value) : execute files e r =
      match profilePath e r.config with
      | none => pure (.fail (.profile .noPlace))
      | some place => set files r place key value := by
  cases hplace : profilePath e r.config <;> simp only [execute, h, hplace]

theorem code_fail (json : Bool) (cause : ProfileError) :
    ((Answer.fail (.profile cause)).report json).code ≠ 0 :=
  (by decide : (5 : Nat) ≠ 0)

namespace FileAt

variable (file : FileAt files path) {s : σ}

/-- A request for a key edits the file and is answered with a text, or it fails and the file stays,
because there is no place for it or the key cannot be set. -/
theorem execute_run (h : file.Ready s) (e : Environment) {r : Request} {key value : String}
    (hcommand : r.command = .set key value)
    (hplace : ∀ place, profilePath e r.config = some place → place = path) :
    ∃ s', file.Ready s' ∧
      (((∃ output, (execute files e r).run s = (.say output, s')) ∧
          (profilePath e r.config).isSome ∧ Edits key value (file.content s) (file.content s')) ∨
        (∃ cause, (execute files e r).run s = (.fail (.profile cause), s')) ∧
          file.content s' = file.content s ∧ ((profilePath e r.config).isSome →
            ∀ after, ¬Edits key value (file.content s) after)) := by
  have hexecute := execute_set files e hcommand
  cases hpath : profilePath e r.config with
  | none =>
    simp only [hpath] at hexecute
    exact ⟨s, h, .inr ⟨⟨.noPlace, by rw [hexecute]; rfl⟩, rfl, nofun⟩⟩
  | some place =>
    obtain rfl := hplace place hpath
    simp only [hpath] at hexecute
    obtain ⟨s', hready, ⟨hset, hedits⟩ | ⟨⟨cause, hset⟩, hsame, hedits⟩⟩ :=
      file.setKey_run h key value
    · exact ⟨s', hready, .inl ⟨⟨_, by rw [hexecute, set, run_bind_of hset]; rfl⟩, rfl, hedits⟩⟩
    · exact ⟨s', hready, .inr ⟨⟨cause, by rw [hexecute, set, run_bind_of hset]; rfl⟩, hsame,
        fun _ => hedits⟩⟩

/-- A run edits the file and succeeds, or it fails and the file stays, because the arguments are not
in order or the key cannot be set. -/
theorem run_cases (h : file.Ready s) (c : Setting path) : file.Ready (c.after files s) ∧
    (((c.report files s).code = 0 ∧ c.InOrder ∧
        Edits c.key c.value (file.content s) (file.content (c.after files s))) ∨
      ((c.report files s).code ≠ 0 ∧ file.content (c.after files s) = file.content s ∧
        (c.InOrder → ∀ after, ¬Edits c.key c.value (file.content s) after))) := by
  unfold Setting.report Setting.after run
  cases hrequest : Request.ofArguments c.args with
  | error stop =>
    obtain rfl := c.misused stop hrequest
    refine ⟨h, .inr ⟨(by decide : (2 : Nat) ≠ 0), rfl, ?_⟩⟩
    rintro ⟨r, hr, -⟩
    cases hrequest.symm.trans hr
  | ok r =>
    obtain ⟨hcommand, hplace⟩ := c.asks r hrequest
    obtain ⟨s', hready, ⟨⟨output, hrun⟩, hsome, hedits⟩ | ⟨⟨cause, hrun⟩, hsame, hedits⟩⟩ :=
      file.execute_run h c.environment hcommand hplace
    · simp only [run_bind_of hrun]
      exact ⟨hready, .inl ⟨rfl, ⟨r, hrequest, hsome⟩, hedits⟩⟩
    · simp only [run_bind_of hrun]
      refine ⟨hready, .inr ⟨code_fail _ _, hsame, ?_⟩⟩
      rintro ⟨r', hr', hsome⟩
      cases hrequest.symm.trans hr'
      exact hedits hsome

/-- After runs the folder can still be made. -/
theorem ready_afterAll (h : file.Ready s) (cs : List (Setting path)) :
    file.Ready (Setting.afterAll files s cs) := by
  induction cs generalizing s with
  | nil => exact h
  | cons c cs ih => exact ih (file.run_cases h c).1

theorem loaded_eq (h : file.Ready s) :
    loaded files path s = Profile.ofContent (file.content s) := by
  rw [loaded, file.loadProfile_run h]

theorem edits_of_code (h : file.Ready s) {c : Setting path} (hc : (c.report files s).code = 0) :
    c.InOrder ∧ Edits c.key c.value (file.content s) (file.content (c.after files s)) := by
  rcases (file.run_cases h c).2 with ⟨-, hrun⟩ | ⟨hcode, -⟩
  · exact hrun
  · exact absurd hc hcode

theorem code_of_edits (h : file.Ready s) {c : Setting path} (hc : c.InOrder)
    {after : Option ByteArray} (hedits : Edits c.key c.value (file.content s) after) :
    (c.report files s).code = 0 := by
  rcases (file.run_cases h c).2 with ⟨hcode, -⟩ | ⟨-, -, hnot⟩
  · exact hcode
  · exact absurd hedits (hnot hc after)

/-- Runs that set different keys may be exchanged. -/
theorem exchange (h : file.Ready s) {c d : Setting path} (hkeys : c.key ≠ d.key)
    (hc : (c.report files s).code = 0) (hd : (d.report files (c.after files s)).code = 0) :
    (d.report files s).code = 0 ∧ (c.report files (d.after files s)).code = 0 ∧
      file.content (d.after files (c.after files s)) =
        file.content (c.after files (d.after files s)) := by
  have hafter := fun c : Setting path => (file.run_cases h c).1
  obtain ⟨hcorder, hfirst⟩ := file.edits_of_code h hc
  obtain ⟨hdorder, hsecond⟩ := file.edits_of_code (hafter c) hd
  obtain ⟨mid, hother, hlast⟩ := hfirst.commute hsecond hkeys
  have hdcode := file.code_of_edits h hdorder hother
  obtain rfl := hother.unique (file.edits_of_code h hdcode).2
  have hccode := file.code_of_edits (hafter d) hcorder hlast
  exact ⟨hdcode, hccode, hlast.unique (file.edits_of_code (hafter d) hccode).2⟩

/-- After any runs that set keys, whatever the file held before them, a further run either succeeds,
and the file then holds the profile that it held with the value for the key and nothing else
changed, or it fails and leaves the bytes of the file. It succeeds if the key can be set. Two runs
that succeed with different keys leave the same file in either order. -/
theorem settings_faithful (s : σ) (h : file.Ready s) (before : List (Setting path)) :
    (∀ c : Setting path, let now := Setting.afterAll files s before
      ((c.report files now).code = 0 ∧ ∃ p q, loaded files path now = .ok p ∧
          p.Sets c.key c.value q ∧ loaded files path (c.after files now) = .ok q) ∨
        ((c.report files now).code ≠ 0 ∧
          file.content (c.after files now) = file.content now)) ∧
    (∀ c : Setting path, let now := Setting.afterAll files s before
      c.InOrder → ∀ p q, loaded files path now = .ok p → p.Sets c.key c.value q →
        (c.report files now).code = 0) ∧
    (∀ c d : Setting path, let now := Setting.afterAll files s before
      c.key ≠ d.key → (c.report files now).code = 0 →
        (d.report files (c.after files now)).code = 0 →
        (d.report files now).code = 0 ∧ (c.report files (d.after files now)).code = 0 ∧
          file.content (d.after files (c.after files now)) =
            file.content (c.after files (d.after files now))) := by
  have hready := file.ready_afterAll h before
  refine ⟨fun c => ?_, fun c hc p q hp hq => ?_, fun c d => file.exchange hready⟩
  · obtain ⟨hafter, ⟨hcode, -, hedits⟩ | ⟨hcode, hcontent, -⟩⟩ := file.run_cases hready c
    · obtain ⟨p, q, hp, hq, hread⟩ := hedits.ofContent_eq_ok
      exact .inl ⟨hcode, p, q, (file.loaded_eq hready).trans hp, hq,
        (file.loaded_eq hafter).trans hread⟩
    · exact .inr ⟨hcode, hcontent⟩
  · obtain ⟨_, _, hedits⟩ := Edits.of_sets ((file.loaded_eq hready).symm.trans hp) hq
    exact file.code_of_edits hready hc hedits

end FileAt

/-- The place of a profile below the folder of a user. -/
def homePath : String := "cfq/config.toml"

theorem inFolder_home : InFolder homePath "cfq" "config.toml" where
  path_ok := rfl
  path_relative := by decide
  path_segments := by decide
  path_end := by decide
  folder_ok := rfl
  folder_relative := by decide
  folder_segments := by decide
  folder_parts := by decide
  folder_length := by decide
  folder_ne := by decide
  name_length := by decide
  name_ne := by decide
  folderOf := by decide

/-- A folder in which nothing lies. -/
def home : FileTree := .empty ["home"]

namespace Setting

/-- Sets the file of the hierarchy. -/
def nameStore : Setting homePath := .ofWords _ "hierarchy" "my \"store\".toml"

/-- Sets the depth to a number that is too great to be written. -/
def deepen : Setting homePath := .ofWords _ "compiler.max_alias_depth" "9223372036854775808"

/-- Sets the direction of sort keys. -/
def ascend : Setting homePath := .ofWords _ "compiler.default_sort_ascending" "YES"

end Setting

theorem sets_nameStore (l : Limits) :
    Profile.Sets ⟨none, l⟩ "hierarchy" "my \"store\".toml" ⟨some "my \"store\".toml", l⟩ :=
  ⟨.hierarchy, _, by decide, rfl, trivial, rfl, fun other h => by cases other <;> trivial⟩

theorem sets_ascend (store : Option String) :
    Profile.Sets ⟨store, .standard⟩ "compiler.default_sort_ascending" "YES"
      ⟨store, ⟨16, 8192, true⟩⟩ := by
  have hparse : ProfileKey.parse .defaultSortAscending "YES" = .ok (.truth true) := by
    have hlower : Text.lower "YES" = "yes" := by
      rw [Text.lower, ← String.toList_inj, String.toList_map]
      decide
    rw [ProfileKey.parse, Profile.boolean, hlower]
    rfl
  exact ⟨.defaultSortAscending, _, by decide, hparse, trivial, rfl, fun other h => by
    cases other <;> trivial⟩

theorem not_sets_deepen (p q : Profile) :
    ¬p.Sets "compiler.max_alias_depth" "9223372036854775808" q := by
  rintro ⟨key, value, hname, hparse, hfits, -⟩
  have hkey : ProfileKey.ofName? "compiler.max_alias_depth" = some .maxAliasDepth := by decide
  cases hkey.symm.trans hname
  have hnumber : ProfileKey.parse .maxAliasDepth "9223372036854775808" =
    .ok (.number 9223372036854775808) := rfl
  cases hnumber.symm.trans hparse
  exact absurd (show Toml.Fits 9223372036854775808 from hfits) (by decide)

/-- In a folder without a profile, the hierarchy is named, a depth that is too great is refused, and
the direction of sort keys may be set before or after. -/
theorem settings_faithful_home :
    (Setting.nameStore.report FileTree.files home).code = 0 ∧
    loaded FileTree.files homePath (Setting.nameStore.after FileTree.files home) =
      .ok ⟨some "my \"store\".toml", .standard⟩ ∧
    (Setting.deepen.report FileTree.files (Setting.nameStore.after FileTree.files home)).code ≠ 0 ∧
    inFolder_home.fileAt.content
        (Setting.deepen.after FileTree.files (Setting.nameStore.after FileTree.files home)) =
      inFolder_home.fileAt.content (Setting.nameStore.after FileTree.files home) ∧
    inFolder_home.fileAt.content
        (Setting.ascend.after FileTree.files (Setting.nameStore.after FileTree.files home)) =
      inFolder_home.fileAt.content
        (Setting.nameStore.after FileTree.files (Setting.ascend.after FileTree.files home)) := by
  have hready : inFolder_home.fileAt.Ready home := .inr ⟨by decide, by decide⟩
  have hloaded : loaded FileTree.files homePath home = .ok .standard := by rfl
  obtain ⟨hrun, hsucceeds, hswap⟩ := inFolder_home.fileAt.settings_faithful home hready []
  obtain ⟨hrunNamed, hsucceedsNamed, -⟩ :=
    inFolder_home.fileAt.settings_faithful home hready [Setting.nameStore]
  have hname : (Setting.nameStore.report FileTree.files home).code = 0 :=
    hsucceeds .nameStore (Setting.inOrder_ofWords _ _ _) _ _ hloaded (sets_nameStore _)
  have hnamed : loaded FileTree.files homePath (Setting.nameStore.after FileTree.files home) =
      .ok ⟨some "my \"store\".toml", .standard⟩ := by
    rcases hrun .nameStore with ⟨-, p, q, hp, hq, hafter⟩ | ⟨hcode, -⟩
    · cases hloaded.symm.trans hp
      rw [(sets_nameStore _).unique hq]
      exact hafter
    · exact absurd hname hcode
  have hascend := hsucceedsNamed .ascend (Setting.inOrder_ofWords _ _ _) _ _ hnamed (sets_ascend _)
  have hdeepen := hrunNamed .deepen
  rcases hdeepen with ⟨-, p, q, -, hq, -⟩ | ⟨hcode, hcontent⟩
  · exact absurd hq (not_sets_deepen p q)
  · exact ⟨hname, hnamed, hcode, hcontent,
      (hswap .nameStore .ascend (by decide) hname hascend).2.2⟩

end CalendarQuery.CommandLine
