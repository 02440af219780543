import Mizzle.Backend.PackDir
import Mizzle.Proto.Receive

/-!
# Ingest and rollback of the gitoxide backend

`ingest_pack_sync` and `rollback_ingest` of `mizzle/src/backend/fs_gitoxide.rs`. The pack library
indexes the staged pack into a temporary directory; the two files are then moved to `objects/pack`,
each only if its name is not taken, and the handle remembers which of them were moved. A rollback
removes those. A move is taken to succeed.
-/

namespace Mizzle.Gitoxide

open Lib

/-- `FsWrittenPack`. -/
structure FsWrittenPack where
  pack : String
  index : String
  packOwned : Bool
  indexOwned : Bool
deriving DecidableEq

def findExtension (ext : String) (files : List (String × Bytes)) : Option (String × Bytes) :=
  (files.filter fun file => hasExtension ext file.1).getLast?

/-- The moves to `objects/pack`: the pack, then the index. -/
def installFiles (dir : PackDir) (pack index : String × Bytes) : PackDir × FsWrittenPack :=
  let (dir, packOwned) := dir.install pack
  let (dir, indexOwned) := dir.install index
  (dir, ⟨pack.1, index.1, packOwned, indexOwned⟩)

/-- `ingest_pack_sync`. `writeToDirectory` is the pack library, which may read the packs of the
repository for a thin pack; its result is what it leaves in the temporary directory. -/
def ingestPackSync (writeToDirectory : PackDir → Bytes → Option (List (String × Bytes)))
    (dir : PackDir) (staged : Bytes) : PackDir × Except String (Option FsWrittenPack) :=
  if (Receive.packObjectCount (staged.take 12)).getD 0 = 0 then (dir, .ok none)
  else
    match writeToDirectory dir staged with
    | none => (dir, .error "indexing received pack")
    | some files =>
      match findExtension "pack" files with
      | none => (dir, .error "no .pack file written")
      | some pack =>
        match findExtension "idx" files with
        | none => (dir, .error "no .idx file written")
        | some index => ((installFiles dir pack index).1, .ok (some (installFiles dir pack index).2))

/-- `rollback_ingest`: the index, then the pack. -/
def rollbackIngest (dir : PackDir) (pack : FsWrittenPack) : PackDir :=
  (dir.undo pack.index pack.indexOwned).undo pack.pack pack.packOwned

theorem rollback_installFiles (dir : PackDir) (pack index : String × Bytes) :
    rollbackIngest (installFiles dir pack index).1 (installFiles dir pack index).2 = dir := by
  have hindex := PackDir.undo_install (dir.install pack).1 index
  rw [rollbackIngest, installFiles]
  simp only
  rw [hindex, PackDir.undo_install]

theorem hasExtension_of_findExtension {ext : String} {files : List (String × Bytes)}
    {file : String × Bytes} (h : findExtension ext files = some file) :
    hasExtension ext file.1 = true := by
  have hmem : file ∈ files.filter fun file => hasExtension ext file.1 := List.mem_of_getLast? h
  exact (List.mem_filter.mp hmem).2

variable {writeToDirectory : PackDir → Bytes → Option (List (String × Bytes))} {dir dir' : PackDir}
  {staged : Bytes}

theorem ingestPackSync_some {w : FsWrittenPack}
    (h : ingestPackSync writeToDirectory dir staged = (dir', .ok (some w))) :
    ∃ pack index, dir' = (installFiles dir pack index).1 ∧ w = (installFiles dir pack index).2 ∧
      hasExtension "pack" pack.1 = true ∧ hasExtension "idx" index.1 = true := by
  rw [ingestPackSync] at h
  split at h
  · simp at h
  · split at h
    · simp at h
    · split at h
      · simp at h
      · split at h
        · simp at h
        · rename_i pack hpack _ index hindex
          obtain ⟨hdir, hw⟩ := Prod.mk.inj h
          exact ⟨pack, index, hdir.symm, (Option.some.inj (Except.ok.inj hw)).symm,
            hasExtension_of_findExtension hpack, hasExtension_of_findExtension hindex⟩

theorem ingestPackSync_none (h : ingestPackSync writeToDirectory dir staged = (dir', .ok none)) :
    dir' = dir := by
  rw [ingestPackSync] at h
  split at h
  · exact (Prod.mk.inj h).1.symm
  · split at h
    · simp at h
    · split at h
      · simp at h
      · split at h <;> simp at h

/-! ### The objects of a repository -/

/-- The object database finds an object that is loose or listed by an index of the directory.
`loose` and `listed` are what the library reads there. -/
def Holds (loose : ObjectId → Prop) (listed : Bytes → List ObjectId) (dir : PackDir)
    (oid : ObjectId) : Prop :=
  loose oid ∨ ∃ name bytes, hasExtension "idx" name = true ∧ dir name = some bytes ∧ oid ∈ listed bytes

def ListedBy (listed : Bytes → List ObjectId) (dir : PackDir) (name : String) (oid : ObjectId) :
    Prop :=
  ∃ bytes, dir name = some bytes ∧ oid ∈ listed bytes

theorem holds_install {loose : ObjectId → Prop} {listed : Bytes → List ObjectId} {dir : PackDir}
    {oid : ObjectId} (file : String × Bytes) (h : Holds loose listed dir oid) :
    Holds loose listed (dir.install file).1 oid := by
  refine h.imp_right ?_
  rintro ⟨name, bytes, hext, hname, hlisted⟩
  refine ⟨name, bytes, hext, ?_, hlisted⟩
  by_cases hsame : name = file.1
  · rw [PackDir.install, if_pos (by simp [← hsame, hname])]
    exact hname
  · rw [PackDir.install_ne _ _ hsame, hname]

/-- **After an ingest the repository has the objects it had and those of the new index.** -/
theorem holds_ingestPackSync {w : FsWrittenPack}
    (h : ingestPackSync writeToDirectory dir staged = (dir', .ok (some w)))
    (loose : ObjectId → Prop) (listed : Bytes → List ObjectId) (oid : ObjectId) :
    Holds loose listed dir' oid ↔ Holds loose listed dir oid ∨
      ListedBy listed dir' w.index oid := by
  obtain ⟨pack, index, rfl, rfl, hpack, hindex⟩ := ingestPackSync_some h
  constructor
  · rintro (hloose | ⟨name, bytes, hext, hname, hlisted⟩)
    · exact Or.inl (Or.inl hloose)
    by_cases hnew : name = index.1
    · subst hnew
      exact Or.inr ⟨bytes, hname, hlisted⟩
    · have hpackNe : name ≠ pack.1 := by
        rintro rfl
        exact not_hasExtension_idx_of_pack hpack hext
      refine Or.inl (Or.inr ⟨name, bytes, hext, ?_, hlisted⟩)
      rw [← hname, installFiles]
      simp only
      rw [PackDir.install_ne _ _ hnew, PackDir.install_ne _ _ hpackNe]
  · rintro (hold | ⟨bytes, hname, hlisted⟩)
    · exact holds_install index (holds_install pack hold)
    · exact Or.inr ⟨index.1, bytes, hindex, hname, hlisted⟩

end Mizzle.Gitoxide
