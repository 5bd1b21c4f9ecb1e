import Mathlib.Data.List.Basic
import PegGrammar.Snapshot.Location

/-!
# Plain file names

Two names can lead to one place, and a name can lead out of the directory or nowhere. Plain file
names do neither: each of them has a place of its own in the directory. So as long as names are
plain, the files of a directory are a map from names to contents, and paths can be forgotten.

Plain is what a file system takes for a file name: no slash, no NUL, and not too long. The name of
a snapshot becomes a file name when its ending is put behind it, and the ending counts.

## Main definitions

* `PlainFile` — names that a file can have
* `Folder` — directories in which files can be kept

## Main results

* `walk?_eq_foldlM` — a walk along a trail of folders that are known
* `exists_locate?_eq` — plain file names have places of their own
-/

namespace PegGrammar.Snapshot

/-! ### Parts of a path -/

/-- The parts of a path, between its slashes. -/
def pathParts (cs : List Char) : List Part := (splitSlash cs).1 :: (splitSlash cs).2

/-- A slash separates what stands on either side of it, wherever else there are slashes. -/
theorem pathParts_append (front back : List Char) :
    pathParts (front ++ '/' :: back) = pathParts front ++ pathParts back := by
  induction front with
  | nil => rfl
  | cons c front ih =>
    simp only [pathParts, List.cons_append, List.cons.injEq] at ih ⊢
    by_cases hc : c = '/'
    · simp [splitSlash, hc, ih]
    · simp [splitSlash, hc, ih]

theorem pathParts_of_not_mem {cs : List Char} (h : '/' ∉ cs) : pathParts cs = [cs] := by
  induction cs with
  | nil => rfl
  | cons c cs ih =>
    obtain ⟨hc, hcs⟩ := not_or.mp (List.mem_cons.not.mp h)
    have hrest := ih hcs
    simp only [pathParts, List.cons.injEq] at hrest ⊢
    simp [splitSlash, Ne.symm hc, hrest]

theorem foldersAndFile_eq {path : String} {folders : List Part} {file : Part}
    (h : pathParts path.toList = folders ++ [file]) : foldersAndFile path = (folders, file) := by
  have hdrop : (pathParts path.toList).dropLast = folders := by rw [h, List.dropLast_concat]
  have hlast : (pathParts path.toList).getLast (List.cons_ne_nil _ _) = file := by
    simp only [h, List.getLast_append_singleton]
  exact Prod.ext hdrop hlast

/-! ### Walking along a trail -/

theorem mem_trail_self (here : Place) (parts : List Part) : here ∈ trail here parts := by
  cases parts with
  | nil => exact List.mem_singleton_self here
  | cons part parts =>
    rw [trail]
    cases enter here part <;> exact List.mem_cons_self

/-- Where all folders of a trail are known, a walk along it ends where entering one part after the
other leads. -/
theorem walk?_eq_foldlM {known : List Place} {here : Place} {parts : List Part}
    (h : trail here parts ⊆ known) : walk? known here parts = parts.foldlM enter here := by
  induction parts generalizing here with
  | nil => rfl
  | cons part parts ih =>
    rw [walk?, List.foldlM_cons]
    rw [trail] at h
    cases henter : enter here part with
    | none => rfl
    | some there =>
      rw [henter] at h
      have htrail := (List.cons_subset.mp h).2
      have hthere : known.contains there = true :=
        List.contains_iff_mem.mpr (htrail (mem_trail_self there parts))
      simp only [hthere, if_true, ih htrail]
      rfl

/-! ### Files -/

/-- A name that a file can have when the ending of snapshots is put behind it. -/
structure PlainFile (name : String) : Prop where
  /-- It does not lead into a folder. -/
  no_slash : '/' ∉ name.toList
  /-- It has no NUL in it. -/
  no_nul : '\x00' ∉ name.toList
  /-- With the ending it is short enough. -/
  fits : name.utf8ByteSize + ".snap".utf8ByteSize ≤ maxNameSize

/-- A directory in which files can be kept. -/
structure Folder (directory : String) : Prop where
  /-- It has a name. -/
  ne_empty : directory ≠ ""
  /-- It has no NUL in it. -/
  no_nul : '\x00' ∉ directory.toList
  /-- There is room for a slash and the name of a file behind it. -/
  fits : directory.utf8ByteSize + 1 + maxNameSize ≤ maxPathSize
  /-- Its parts lead somewhere. -/
  leads : ((pathParts directory.toList).foldlM enter []).isSome = true

instance (name : String) : Decidable (PlainFile name) :=
  decidable_of_iff ('/' ∉ name.toList ∧ '\x00' ∉ name.toList ∧
      name.utf8ByteSize + ".snap".utf8ByteSize ≤ maxNameSize)
    ⟨fun h => ⟨h.1, h.2.1, h.2.2⟩, fun h => ⟨h.no_slash, h.no_nul, h.fits⟩⟩

instance (directory : String) : Decidable (Folder directory) :=
  decidable_of_iff (directory ≠ "" ∧ '\x00' ∉ directory.toList ∧
      directory.utf8ByteSize + 1 + maxNameSize ≤ maxPathSize ∧
      ((pathParts directory.toList).foldlM enter []).isSome = true)
    ⟨fun h => ⟨h.1, h.2.1, h.2.2.1, h.2.2.2⟩, fun h => ⟨h.ne_empty, h.no_nul, h.fits, h.leads⟩⟩

/-- The name of the file of a snapshot. -/
def fileOf (name : String) : Part := (name ++ ".snap").toList

/-- Names that differ give files that differ, since the ending that is put behind them is the
same. -/
theorem fileOf_injective : Function.Injective fileOf := by
  intro name name' h
  exact (String.append_left_inj ".snap").mp (String.toList_inj.mp h)

variable {directory name : String}

/-- A plain name is not a path of its own, so its file is looked for in the directory. -/
theorem PlainFile.snapshotPath_eq (h : PlainFile name) :
    snapshotPath directory name = filePath directory name := by
  have habsolute : isAbsolute name = false := by
    rw [isAbsolute, beq_eq_false_iff_ne]
    intro hhead
    exact h.no_slash (List.mem_of_mem_head? hhead)
  rw [snapshotPath, habsolute]
  rfl

/-- The path of a plain name in a folder can be used: it is short enough, both as a whole and in its
last part, and there is no NUL in it. -/
theorem isUsable_filePath (hfolder : Folder directory) (hname : PlainFile name) :
    isUsable (filePath directory name) (fileOf name) = true := by
  have hslash : "/".utf8ByteSize = 1 := rfl
  have hroom := hfolder.fits
  have hfits := hname.fits
  have hpath : (filePath directory name).utf8ByteSize ≤ maxPathSize := by
    simp only [filePath, String.utf8ByteSize_append, hslash]
    omega
  have hfile : (String.ofList (fileOf name)).utf8ByteSize ≤ maxNameSize := by
    rw [fileOf, String.ofList_toList, String.utf8ByteSize_append]
    exact hfits
  have hnul : '\x00' ∉ (filePath directory name).toList := by
    simp [filePath, hfolder.no_nul, hname.no_nul]
  simp [isUsable, hpath, hfile, hnul]

theorem isAbsolute_filePath (hfolder : Folder directory) :
    isAbsolute (filePath directory name) = isAbsolute directory := by
  obtain ⟨c, cs, hdirectory⟩ :=
    List.exists_cons_of_ne_nil (String.toList_eq_nil_iff.not.mpr hfolder.ne_empty)
  simp [isAbsolute, filePath, hdirectory]

theorem foldersAndFile_filePath (hname : PlainFile name) :
    foldersAndFile (filePath directory name) = (pathParts directory.toList, fileOf name) := by
  refine foldersAndFile_eq ?_
  have hfile : '/' ∉ fileOf name := by simp [fileOf, hname.no_slash]
  have hpath : (filePath directory name).toList = directory.toList ++ '/' :: fileOf name := by
    simp [filePath, fileOf]
  rw [hpath, pathParts_append, pathParts_of_not_mem hfile]

/-- **Plain file names have places of their own** in the directory. -/
theorem exists_locate?_eq (hfolder : Folder directory) :
    ∃ folder, ∀ name, PlainFile name →
      locate? directory (filePath directory name) = some (fileOf name :: folder) := by
  obtain ⟨folder, hleads⟩ := Option.isSome_iff_exists.mp hfolder.leads
  have hwalk : walk? (trail [] (pathParts directory.toList)) [] (pathParts directory.toList)
      = some folder := (walk?_eq_foldlM (List.Subset.refl _)).trans hleads
  refine ⟨folder, fun name hname => ?_⟩
  have hguard : (isUsable (filePath directory name) (fileOf name)
      && isAbsolute (filePath directory name) == isAbsolute directory) = true := by
    rw [isUsable_filePath hfolder hname, isAbsolute_filePath hfolder]
    simp
  rw [locate?, foldersAndFile_filePath hname]
  simp only [hguard, if_true]
  exact congrArg (Option.map (fileOf name :: ·)) hwalk

end PegGrammar.Snapshot
