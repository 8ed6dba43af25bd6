import CalendarQuery.CommandLine.Run
import CalendarQuery.Proofs.CommandLine.Content
import CalendarQuery.Proofs.Files.Tree

/-!
# The file of a profile

How a profile gets from a file and to it, where folders can be made and files can be written.

* `FileAt`: a file at a path, with what its operations do.
* `FileAt.loadProfile_run`, `FileAt.saveProfile_run`: reading and writing the profile.
* `FileAt.setKey_run`: a key is set in the profile, or the file stays.
* `InFolder.fileAt`: the file of a tree, in a folder that need not be there.
-/

namespace CalendarQuery

namespace CommandLine

variable {σ : Type} {path : String} {files : Files (StateM σ)}

/-! ## Files that can be written -/

/-- A file at a path, in a folder that can always be made. -/
structure FileAt (files : Files (StateM σ)) (path : String) where
  folder : String
  folder_eq : Text.folderOf? path = some folder
  /-- The bytes of the file, if it is there. -/
  content : σ → Option ByteArray
  /-- The folder can be made. -/
  Ready : σ → Prop
  /-- The folder has been made, and the file can be written. -/
  Placed : σ → Prop
  isThere : ∀ s, Ready s → (files.isThere path).run s = ((content s).isSome, s)
  read : ∀ s bytes, Ready s → content s = some bytes →
    (files.read path).run s = ((String.fromUTF8? bytes).elim (.error .notText) .ok, s)
  createFolders : ∀ s, Ready s → ∃ s', (files.createFolders folder).run s = (.ok (), s') ∧
    Ready s' ∧ Placed s' ∧ content s' = content s
  write : ∀ s text, Ready s → Placed s → ∃ s', (files.write path text).run s = (.ok (), s') ∧
    Ready s' ∧ content s' = some text.toUTF8

namespace FileAt

variable (file : FileAt files path) {s : σ}

theorem loadProfile_run (h : file.Ready s) :
    (loadProfile files path).run s = (Profile.ofContent (file.content s), s) := by
  rw [loadProfile, run_bind_of (file.isThere s h)]
  cases hcontent : file.content s with
  | none => rfl
  | some bytes =>
    rw [Option.isSome_some, if_pos rfl, run_bind_of (file.read s bytes h hcontent)]
    cases hbytes : String.fromUTF8? bytes with
    | none =>
      simp only [Profile.ofContent, hbytes]
      rfl
    | some text =>
      cases hread : Profile.ofDocument? text <;>
      · simp only [Profile.ofContent, hbytes, hread, Option.elim]
        rfl

theorem makeFolder_run (h : file.Ready s) : ∃ s', (makeFolder files path).run s = (.ok (), s') ∧
    file.Ready s' ∧ file.Placed s' ∧ file.content s' = file.content s := by
  obtain ⟨s', hcreate, hs'⟩ := file.createFolders s h
  refine ⟨s', ?_, hs'⟩
  rw [makeFolder, file.folder_eq]
  exact run_bind_of hcreate

/-- A profile with a document is written to the file. -/
theorem saveProfile_run (h : file.Ready s) {p : Profile} {text : String}
    (htext : p.document = .ok text) : ∃ s', (saveProfile files path p).run s = (.ok (), s') ∧
      file.Ready s' ∧ file.content s' = some text.toUTF8 := by
  obtain ⟨s₁, hfolder, hready, hplaced, -⟩ := file.makeFolder_run h
  obtain ⟨s₂, hwrite, hs₂⟩ := file.write s₁ text hready hplaced
  refine ⟨s₂, ?_, hs₂⟩
  rw [saveProfile, run_bind_of hfolder]
  simp only [htext]
  exact run_bind_of hwrite

/-- A profile without a document is refused before the file is touched. -/
theorem saveProfile_run_of_error (h : file.Ready s) {p : Profile} {cause : Toml.WriteError}
    (hcause : p.document = .error cause) :
    ∃ s', (saveProfile files path p).run s = (.error (.inexpressible cause), s') ∧
      file.Ready s' ∧ file.content s' = file.content s := by
  obtain ⟨s', hfolder, hready, -, hcontent⟩ := file.makeFolder_run h
  refine ⟨s', ?_, hready, hcontent⟩
  rw [saveProfile, run_bind_of hfolder]
  simp only [hcause]
  rfl

/-- A key is set in the profile of the file, or the file stays because the key cannot be set. -/
theorem setKey_run (h : file.Ready s) (name text : String) : ∃ s', file.Ready s' ∧
    (((setKey files path name text).run s = (.ok (), s') ∧
        Edits name text (file.content s) (file.content s')) ∨
      (∃ cause, (setKey files path name text).run s = (.error cause, s')) ∧
        file.content s' = file.content s ∧ ∀ after, ¬Edits name text (file.content s) after) := by
  have hload := file.loadProfile_run h
  cases hcontent : Profile.ofContent (file.content s) with
  | error cause =>
    rw [hcontent] at hload
    refine ⟨s, h, .inr ⟨⟨cause, run_bind_of hload⟩, rfl, ?_⟩⟩
    rintro after ⟨p, q, document, hp, -⟩
    cases hcontent.symm.trans hp
  | ok p =>
    rw [hcontent] at hload
    have hrun : (setKey files path name text).run s = _ := run_bind_of hload
    rcases p.set_cases (Profile.expressible_of_ofContent hcontent) name text with
      ⟨q, hset, hq⟩ | ⟨hnot, hsets⟩
    · obtain ⟨document, hdocument, hedits⟩ := Edits.of_sets hcontent hq
      obtain ⟨s', hsave, hready, hwritten⟩ := file.saveProfile_run h hdocument
      simp only [hset, hsave] at hrun
      exact ⟨s', hready, .inl ⟨hrun, hwritten ▸ hedits⟩⟩
    · have hedits : ∀ after, ¬Edits name text (file.content s) after := by
        rintro after ⟨p', q, document, hp', hq, -⟩
        cases hcontent.symm.trans hp'
        exact hsets q hq
      cases hset : p.set name text with
      | error cause =>
        simp only [hset] at hrun
        exact ⟨s, h, .inr ⟨⟨cause, hrun⟩, rfl, hedits⟩⟩
      | ok q =>
        obtain ⟨s', hsave, hready, hsame⟩ :=
          file.saveProfile_run_of_error h (Profile.document_of_not_expressible (hnot q hset))
        simp only [hset, hsave] at hrun
        exact ⟨s', hready, .inr ⟨⟨_, hrun⟩, hsame, hedits⟩⟩

end FileAt

end CommandLine

/-! ## Files of trees -/

namespace InFolder

open CommandLine FileTree

variable {path folder name : String}

/-- The folder of the file is there or can be made, and no folder lies in the place of the file. -/
def Writable (folder name : String) (t : FileTree) : Prop :=
  t.below [folder] = some .folder ∧ t.below [folder, name] ≠ some .folder ∨
    t.below [folder] = none ∧ t.below [folder, name] = none

/-- The bytes of the file. -/
def bytes (folder name : String) (t : FileTree) : Option ByteArray :=
  match t.below [folder, name] with
  | some (.file text) => some text.toUTF8
  | _ => none

theorem isThere_run (h : InFolder path folder name) (t : FileTree) (ht : Writable folder name t) :
    (files.isThere path).run t = ((bytes folder name t).isSome, t) := by
  simp only [files, StateT.run_bind, StateT.run_get, pure_bind]
  rcases ht with ⟨hfolder, hname⟩ | ⟨hfolder, hname⟩
  · rw [h.lookup_path t hfolder, bytes]
    rcases hentry : t.below [folder, name] with _ | _ | _
    · rfl
    · rfl
    · exact absurd hentry hname
  · rw [h.lookup_path_of_missing t hfolder, bytes, hname]
    rfl

theorem read_run (h : InFolder path folder name) (t : FileTree) {content : ByteArray}
    (ht : Writable folder name t) (hbytes : bytes folder name t = some content) :
    (files.read path).run t =
      ((String.fromUTF8? content).elim (.error .notText) .ok, t) := by
  simp only [files, StateT.run_bind, StateT.run_get, pure_bind]
  rcases ht with ⟨hfolder, hname⟩ | ⟨hfolder, hname⟩
  · unfold bytes at hbytes
    split at hbytes
    · rename_i text hentry
      cases hbytes
      rw [FileTree.read, h.lookup_path t hfolder, hentry, fromUTF8?_toUTF8]
      rfl
    · cases hbytes
  · simp [bytes, hname] at hbytes

/-- A file of a tree, in a folder below the current one. -/
def fileAt (h : InFolder path folder name) : FileAt files path where
  folder := folder
  folder_eq := h.folderOf
  content := bytes folder name
  Ready := Writable folder name
  Placed t := t.below [folder] = some .folder
  isThere := h.isThere_run
  read t _ := h.read_run t
  createFolders t ht := by
    rcases ht with ⟨hfolder, hname⟩ | ⟨hfolder, hname⟩
    · exact ⟨t, h.createFolders_run_of_folder t hfolder, .inl ⟨hfolder, hname⟩, hfolder, rfl⟩
    · have hthere := t.below_put_self (List.cons_ne_nil folder []) .folder
      have hothers := t.below_put_of_ne [folder] [folder, name] .folder (by simp)
      refine ⟨_, h.createFolders_run_of_none t hfolder, .inl ⟨hthere, ?_⟩, hthere, ?_⟩
      · rw [hothers, hname]
        simp
      · rw [bytes, hothers, bytes]
  write t text ht hplaced := by
    have hname : t.below [folder, name] ≠ some .folder := by
      rcases ht with ⟨-, hname⟩ | ⟨hfolder, -⟩
      · exact hname
      · simp [hfolder] at hplaced
    have hthere := t.below_put_self (List.cons_ne_nil folder [name]) (.file text)
    have hothers := t.below_put_of_ne [folder, name] [folder] (.file text) (by simp)
    refine ⟨_, change_run_of_ok (h.write_path t hplaced hname text), .inl ⟨?_, ?_⟩, ?_⟩
    · rw [hothers, hplaced]
    · rw [hthere]
      simp
    · rw [bytes, hthere]

end InFolder

end CalendarQuery
