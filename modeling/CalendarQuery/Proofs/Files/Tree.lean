import CalendarQuery.Files.Tree

/-!
# Files in a folder of a tree

What the operations on a tree of files do at a path of two names, a folder below the current one and
a file in it.

* `FileTree.below`: what lies below the current folder.
* `InFolder`: the paths.
* `InFolder.lookup_path`, `InFolder.write_path`: reading and writing the file.
* `InFolder.createFolders_run_of_none`: making the folder.
-/

namespace CalendarQuery

/-- A program goes on with what its first step gives. -/
theorem run_bind_of {σ α β : Type} {p : StateM σ α} {f : α → StateM σ β} {s s' : σ} {a : α}
    (h : p.run s = (a, s')) : (p >>= f).run s = (f a).run s' := by
  rw [StateT.run_bind, h]
  rfl

namespace FileTree

/-- What lies below the current folder. -/
def below (t : FileTree) (names : List String) : Option FileEntry := t.entry? (t.current ++ names)

theorem not_isPrefixOf_current (t : FileTree) {names : List String} (h : names ≠ []) :
    (t.current ++ names).isPrefixOf t.current = false := by
  refine Bool.eq_false_iff.mpr fun hprefix => ?_
  have hlen := (List.isPrefixOf_iff_prefix.mp hprefix).length_le
  have hpos := List.length_pos_iff.mpr h
  rw [List.length_append] at hlen
  omega

/-- What is put below the current folder lies there. -/
theorem below_put_self (t : FileTree) {names : List String} (h : names ≠ []) (entry : FileEntry) :
    (t.put (t.current ++ names) entry).below names = some entry := by
  have hfind : (t.entries.filter fun e => e.1 != t.current ++ names).find?
      (fun e => e.1 == t.current ++ names) = none := by
    simp
  simp [below, entry?, put, t.not_isPrefixOf_current h, List.find?_append, hfind]

/-- All else stays. -/
theorem below_put_of_ne (t : FileTree) (names others : List String) (entry : FileEntry)
    (h : others ≠ names) : (t.put (t.current ++ names) entry).below others = t.below others := by
  have hne : (t.current ++ names == t.current ++ others) = false := by
    simpa using fun heq => h heq.symm
  have hfind : (t.entries.filter fun e => e.1 != t.current ++ names).find?
      (fun e => e.1 == t.current ++ others) =
      t.entries.find? (fun e => e.1 == t.current ++ others) := by
    rw [List.find?_filter]
    congr 1
    funext e
    by_cases heq : e.1 = t.current ++ others
    · simp [heq, h]
    · simp [heq]
  simp [below, entry?, put, List.find?_append, hfind, hne]

theorem change_run_of_ok {f : FileTree → Except FileError FileTree} {t t' : FileTree}
    (h : f t = .ok t') : (change f).run t = (.ok (), t') := by
  simp only [change, StateT.run_bind, StateT.run_get, pure_bind, h]
  rfl

theorem change_run_of_error {f : FileTree → Except FileError FileTree} {t : FileTree}
    {cause : FileError} (h : f t = .error cause) : (change f).run t = (.error cause, t) := by
  simp only [change, StateT.run_bind, StateT.run_get, pure_bind, h]
  rfl

end FileTree

/-- A path from the current folder to a file in a folder below it. -/
structure InFolder (path folder name : String) : Prop where
  path_ok : checkPath path = .ok ()
  path_relative : Text.isAbsolute path = false
  path_segments : Text.pathSegments path = [folder, name]
  path_end : FileTree.endsInSlash path = false
  folder_ok : checkPath folder = .ok ()
  folder_relative : Text.isAbsolute folder = false
  folder_segments : Text.pathSegments folder = [folder]
  folder_parts : Text.reversedParts folder = [folder]
  folder_length : folder.utf8ByteSize ≤ longestName
  folder_ne : folder ≠ "." ∧ folder ≠ ".." ∧ Text.isIdlePart folder = false
  name_length : name.utf8ByteSize ≤ longestName
  name_ne : name ≠ "." ∧ name ≠ ".."
  folderOf : Text.folderOf? path = some folder

namespace InFolder

open FileTree

variable {path folder name : String} (h : InFolder path folder name) (t : FileTree)
include h

theorem locate_folder : t.locate folder = .ok (.name t.current folder) := by
  simp [locate, h.folder_ok, h.folder_relative, h.folder_segments, h.folder_ne, bind, Except.bind,
    pure, Except.pure]

theorem entryIn_folder : t.entryIn t.current folder = .ok (t.below [folder]) :=
  if_neg (Nat.not_lt.mpr h.folder_length)

theorem entryIn_name : t.entryIn (t.current ++ [folder]) name = .ok (t.below [folder, name]) := by
  rw [entryIn, if_neg (Nat.not_lt.mpr h.name_length), below, List.append_assoc]
  rfl

/-- The path leads to its name, if the folder is there. -/
theorem locate_path (hfolder : t.below [folder] = some .folder) :
    t.locate path = .ok (.name (t.current ++ [folder]) name) := by
  simp [locate, h.path_ok, h.path_relative, h.path_segments, enter, h.folder_ne, h.name_ne,
    h.entryIn_folder, hfolder, bind, Except.bind, pure, Except.pure]

theorem locate_path_of_missing (hfolder : t.below [folder] = none) :
    t.locate path = .error .missing := by
  simp [locate, h.path_ok, h.path_relative, h.path_segments, enter, h.folder_ne,
    h.entryIn_folder, hfolder, bind, Except.bind, throw, throwThe, MonadExceptOf.throw]

theorem lookup_path (hfolder : t.below [folder] = some .folder) : t.lookup path =
    match t.below [folder, name] with
    | none => .error .missing
    | some entry => .ok entry := by
  simp only [lookup, h.locate_path t hfolder, h.entryIn_name t, h.path_end, bind, Except.bind]
  rcases t.below [folder, name] with _ | _ | _ <;> rfl

theorem lookup_path_of_missing (hfolder : t.below [folder] = none) :
    t.lookup path = .error .missing := by
  simp [lookup, h.locate_path_of_missing t hfolder, bind, Except.bind]

theorem lookup_folder (hfolder : t.below [folder] = some .folder) :
    t.lookup folder = .ok .folder := by
  simp [lookup, h.locate_folder t, h.entryIn_folder t, hfolder, bind, Except.bind, pure,
    Except.pure]

/-- The file is written if the folder is there, and no folder lies at the path. -/
theorem write_path (hfolder : t.below [folder] = some .folder)
    (hname : t.below [folder, name] ≠ some .folder) (text : String) :
    t.write path text = .ok (t.put (t.current ++ [folder, name]) (.file text)) := by
  simp [write, h.locate_path t hfolder, h.path_end, h.entryIn_name t, hname, bind, Except.bind,
    pure, Except.pure]

theorem createFolder_folder : t.createFolder folder =
    match t.below [folder] with
    | none => .ok (t.put (t.current ++ [folder]) .folder)
    | some _ => .error .alreadyThere := by
  simp only [createFolder, h.locate_folder t, h.entryIn_folder t, bind, Except.bind]
  cases t.below [folder] <;> rfl

theorem createFolders_run_of (outcome : Except FileError Unit) {t' : FileTree}
    (hensure : (files.ensureFolder folder).run t = (outcome, t'))
    (hmissing : outcome ≠ .error .missing) :
    (files.createFolders folder).run t = (outcome, t') := by
  have hpath : Text.ofReversedParts [folder] = folder := by simp [Text.ofReversedParts]
  rw [Files.createFolders, h.folder_parts, Files.ensureParts, h.folder_ne.2.2]
  simp only [Bool.false_eq_true, if_false, hpath]
  rw [run_bind_of hensure]
  split
  · exact absurd rfl hmissing
  · rfl

/-- The folder is made if nothing is there. -/
theorem createFolders_run_of_none (hfolder : t.below [folder] = none) :
    (files.createFolders folder).run t = (.ok (), t.put (t.current ++ [folder]) .folder) := by
  have hcreate : (files.createFolder folder).run t = _ :=
    change_run_of_ok (by rw [h.createFolder_folder t, hfolder])
  exact h.createFolders_run_of t (.ok ()) (run_bind_of hcreate) (by simp)

/-- A folder that is there stays as it is. -/
theorem createFolders_run_of_folder (hfolder : t.below [folder] = some .folder) :
    (files.createFolders folder).run t = (.ok (), t) := by
  have hcreate : (files.createFolder folder).run t = _ :=
    change_run_of_error (by rw [h.createFolder_folder t, hfolder])
  have hthere : (files.isFolder folder).run t = (true, t) := by
    simp only [files, StateT.run_bind, StateT.run_get, pure_bind, h.lookup_folder t hfolder]
    rfl
  have hensure : (files.ensureFolder folder).run t = (.ok (), t) := by
    rw [Files.ensureFolder, run_bind_of hcreate]
    exact run_bind_of hthere
  exact h.createFolders_run_of t (.ok ()) hensure (by simp)

end InFolder

end CalendarQuery
