import Mizzle.Lib.Bytes

/-!
# The directory of installed packs

`objects/pack` of a repository as the filesystem backends use it: what each file name holds. Both
backends name a pack and its index after the hash of the pack's content.
-/

namespace Mizzle

open Lib

/-- The content of every file of the directory. -/
abbrev PackDir := String → Option Bytes

/-- The file name has this extension, after a stem that is not empty. -/
def hasExtension (ext name : String) : Bool :=
  ('.' :: ext.toList).isSuffixOf name.toList && ext.toList.length + 1 < name.toList.length

theorem hasExtension_of_stem {ext name : String} (stem : List Char) (hstem : stem ≠ [])
    (hname : name.toList = stem ++ '.' :: ext.toList) : hasExtension ext name := by
  have hlen := List.length_pos_of_ne_nil hstem
  rw [hasExtension, Bool.and_eq_true, hname]
  refine ⟨List.isSuffixOf_iff_suffix.mpr (List.suffix_append _ _), ?_⟩
  simpa using hlen

theorem not_hasExtension_idx_of_pack {name : String} (h : hasExtension "pack" name = true) :
    ¬ hasExtension "idx" name = true := by
  intro hidx
  rw [hasExtension, Bool.and_eq_true, List.isSuffixOf_iff_suffix] at h hidx
  obtain ⟨⟨stem, hpack⟩, -⟩ := h
  obtain ⟨⟨stem', hidx⟩, -⟩ := hidx
  have hlast := congrArg List.getLast? (hpack.trans hidx.symm)
  rw [List.getLast?_append, List.getLast?_append] at hlast
  exact absurd hlast (by simp)

namespace PackDir

def write (dir : PackDir) (name : String) (bytes : Bytes) : PackDir :=
  Function.update dir name (some bytes)

def remove (dir : PackDir) (name : String) : PackDir := Function.update dir name none

/-- A file is moved into the directory unless its name is taken; the flag says whether it was
moved. -/
def install (dir : PackDir) (file : String × Bytes) : PackDir × Bool :=
  if (dir file.1).isSome then (dir, false) else (dir.write file.1 file.2, true)

/-- A file is removed if it is owned. -/
def undo (dir : PackDir) (name : String) (owned : Bool) : PackDir :=
  if owned then dir.remove name else dir

/-- The two directories have the same `.pack` and `.idx` files. -/
def SamePacks (dir dir' : PackDir) : Prop :=
  ∀ name, hasExtension "pack" name ∨ hasExtension "idx" name → dir name = dir' name

@[simp] theorem write_self (dir : PackDir) (name : String) (bytes : Bytes) :
    dir.write name bytes name = some bytes :=
  Function.update_self ..

theorem write_ne (dir : PackDir) {name n : String} (bytes : Bytes) (h : n ≠ name) :
    dir.write name bytes n = dir n :=
  Function.update_of_ne h ..

@[simp] theorem remove_self (dir : PackDir) (name : String) : dir.remove name name = none :=
  Function.update_self ..

theorem remove_ne (dir : PackDir) {name n : String} (h : n ≠ name) : dir.remove name n = dir n :=
  Function.update_of_ne h ..

/-- **Undoing an installation** restores the directory, whether or not the name was taken. -/
theorem undo_install (dir : PackDir) (file : String × Bytes) :
    (dir.install file).1.undo file.1 (dir.install file).2 = dir := by
  rw [install]
  split
  · rfl
  · rename_i habsent
    have hnone : dir file.1 = none := by simpa using habsent
    funext n
    by_cases hn : n = file.1
    · rw [undo, if_pos rfl, hn, remove_self, hnone]
    · rw [undo, if_pos rfl, remove_ne _ hn]
      exact write_ne _ _ hn

theorem install_ne (dir : PackDir) (file : String × Bytes) {n : String} (h : n ≠ file.1) :
    (dir.install file).1 n = dir n := by
  rw [install]
  split
  · rfl
  · exact write_ne _ _ h

end PackDir

end Mizzle
