import Mizzle.Backend.PackDir
import Mizzle.Lib.Text
import Mizzle.Proto.Receive

/-!
# Ingest and rollback of the git command-line backend

`ingest_pack_sync` and `rollback_ingest` of `mizzle/src/backend/fs_git_cli.rs`. The staged pack is
fed to `git index-pack --stdin`, which installs the pack and its index and prints the hash that
names them. The handle has the two file names and nothing else, and a rollback removes both files.

`git index-pack` is not part of the repository; `IndexPackSpec` is what is taken from its
documentation.
-/

namespace Mizzle.GitCli

open Lib

/-- `CliWrittenPack`. -/
structure CliWrittenPack where
  pack : String
  index : String
deriving DecidableEq

/-- What a run of the command comes to. -/
structure IndexPackOutput where
  success : Bool
  dir : PackDir
  stdout : String
  stderr : String

/-- The hash in the output: what follows the last tab. -/
def packHash (stdout : String) : String :=
  String.ofList (((trim stdout.toList).splitOn '\t').getLastD [])

def packFile (hash : String) : String := "pack-" ++ hash ++ ".pack"

def idxFile (hash : String) : String := "pack-" ++ hash ++ ".idx"

/-- `ingest_pack_sync`. -/
def ingestPackSync (indexPack : PackDir → Bytes → IndexPackOutput) (dir : PackDir)
    (staged : Bytes) : PackDir × Except String (Option CliWrittenPack) :=
  if (Receive.packObjectCount (staged.take 12)).getD 0 = 0 then (dir, .ok none)
  else
    let output := indexPack dir staged
    if output.success then
      let hash := packHash output.stdout
      (output.dir, .ok (some ⟨packFile hash, idxFile hash⟩))
    else (output.dir, .error ("git index-pack failed: " ++ output.stderr))

/-- `rollback_ingest`: the index, then the pack. -/
def rollbackIngest (dir : PackDir) (pack : CliWrittenPack) : PackDir :=
  (dir.remove pack.index).remove pack.pack

/-- A lower-case hexadecimal digit. -/
def isHexDigit (c : Char) : Bool :=
  (48 ≤ c.toNat && c.toNat ≤ 57) || (97 ≤ c.toNat && c.toNat ≤ 102)

/-- The documented behaviour of `git index-pack --stdin`, for a pack with this hash: it prints
`pack`, a tab and the hash, and puts the pack and the index into the directory, where files that
exist are left alone. What it does to files of other kinds is not said. -/
structure IndexPackSpec (indexPack : PackDir → Bytes → IndexPackOutput)
    (hash : PackDir → Bytes → String) : Prop where
  hash_ne : ∀ dir staged, (hash dir staged).toList ≠ []
  hash_hex : ∀ dir staged, ∀ c ∈ (hash dir staged).toList, isHexDigit c
  prints : ∀ dir staged, (indexPack dir staged).success →
    (indexPack dir staged).stdout = "pack\t" ++ hash dir staged ++ "\n"
  writes : ∀ dir staged, (indexPack dir staged).success → ∃ pack index, (indexPack dir staged).dir.SamePacks
    ((dir.install (packFile (hash dir staged), pack)).1.install (idxFile (hash dir staged), index)).1

/-! ### The printed hash -/

theorem not_isWhitespace_hex {c : Char} (h : isHexDigit c) : isWhitespace c = false ∧ c ≠ '\t' := by
  simp only [isHexDigit, Bool.or_eq_true, Bool.and_eq_true, decide_eq_true_eq] at h
  constructor
  · simp only [isWhitespace, Bool.or_eq_false_iff, Bool.and_eq_false_iff, decide_eq_false_iff_not, beq_eq_false_iff_ne]
    omega
  · rintro rfl
    simp at h

theorem trim_line {first last : Char} (middle : List Char) (hfirst : isWhitespace first = false)
    (hlast : isWhitespace last = false) :
    trim (first :: (middle ++ [last]) ++ ['\n']) = first :: (middle ++ [last]) := by
  have hlf : isWhitespace '\n' = true := by decide
  simp [trim, hfirst, hlast, hlf]

theorem packHash_line {hash : String} (hne : hash.toList ≠ [])
    (hhex : ∀ c ∈ hash.toList, isHexDigit c) : packHash ("pack\t" ++ hash ++ "\n") = hash := by
  obtain ⟨init, last, hsplit⟩ : ∃ init last, hash.toList = init ++ [last] :=
    ⟨_, _, (List.dropLast_append_getLast hne).symm⟩
  have hlast : isWhitespace last = false := (not_isWhitespace_hex (hhex last (by simp [hsplit]))).1
  have htab : '\t' ∉ hash.toList := fun hmem => (not_isWhitespace_hex (hhex _ hmem)).2 rfl
  have hline : ("pack\t" ++ hash ++ "\n").toList = 'p' :: (['a', 'c', 'k', '\t'] ++ init ++ [last]) ++ ['\n'] := by
    simp [hsplit]
  have hfields : 'p' :: (['a', 'c', 'k', '\t'] ++ init ++ [last]) = ['p', 'a', 'c', 'k'] ++ '\t' :: hash.toList := by
    simp [hsplit]
  rw [packHash, hline, trim_line _ (by decide) hlast, hfields, List.splitOn_append_cons_self,
    List.splitOn_eq_singleton htab, List.getLastD_concat, String.ofList_toList]

/-! ### What an ingest and its rollback leave -/

theorem ingestPackSync_some {indexPack : PackDir → Bytes → IndexPackOutput}
    {hash : PackDir → Bytes → String} (hspec : IndexPackSpec indexPack hash) {dir dir' : PackDir}
    {staged : Bytes} {w : CliWrittenPack}
    (h : ingestPackSync indexPack dir staged = (dir', .ok (some w))) :
    w = ⟨packFile (hash dir staged), idxFile (hash dir staged)⟩ ∧ ∃ pack index, dir'.SamePacks
      ((dir.install (packFile (hash dir staged), pack)).1.install (idxFile (hash dir staged), index)).1 := by
  rw [ingestPackSync] at h
  split at h
  · simp at h
  · simp only at h
    split at h
    · rename_i hsuccess
      obtain ⟨rfl, hw⟩ := Prod.mk.inj h
      refine ⟨?_, hspec.writes dir staged hsuccess⟩
      rw [hspec.prints dir staged hsuccess, packHash_line (hspec.hash_ne dir staged) (hspec.hash_hex dir staged)] at hw
      exact (Option.some.inj (Except.ok.inj hw)).symm
    · simp at h

theorem hasExtension_packFile (hash : String) : hasExtension "pack" (packFile hash) :=
  hasExtension_of_stem ("pack-".toList ++ hash.toList) (by simp) (by simp [packFile])

theorem hasExtension_idxFile (hash : String) : hasExtension "idx" (idxFile hash) :=
  hasExtension_of_stem ("pack-".toList ++ hash.toList) (by simp) (by simp [idxFile])

theorem rollbackIngest_apply (dir : PackDir) (w : CliWrittenPack) (name : String) :
    rollbackIngest dir w name = if name = w.pack ∨ name = w.index then none else dir name := by
  by_cases hpack : name = w.pack
  · simp [rollbackIngest, hpack]
  · by_cases hindex : name = w.index
    · rw [rollbackIngest, PackDir.remove_ne _ hpack, hindex, PackDir.remove_self]
      simp
    · rw [rollbackIngest, PackDir.remove_ne _ hpack, PackDir.remove_ne _ hindex]
      simp [hpack, hindex]

/-- **A rollback restores the packs exactly when neither file was there before.** -/
theorem samePacks_rollbackIngest_iff {indexPack : PackDir → Bytes → IndexPackOutput}
    {hash : PackDir → Bytes → String} (hspec : IndexPackSpec indexPack hash) {dir dir' : PackDir}
    {staged : Bytes} {w : CliWrittenPack}
    (h : ingestPackSync indexPack dir staged = (dir', .ok (some w))) :
    (rollbackIngest dir' w).SamePacks dir ↔
      dir (packFile (hash dir staged)) = none ∧ dir (idxFile (hash dir staged)) = none := by
  obtain ⟨rfl, pack, index, hsame⟩ := ingestPackSync_some hspec h
  constructor
  · intro hrestored
    have hpack := hrestored _ (Or.inl (hasExtension_packFile (hash dir staged)))
    have hidx := hrestored _ (Or.inr (hasExtension_idxFile (hash dir staged)))
    rw [rollbackIngest_apply, if_pos (Or.inl rfl)] at hpack
    rw [rollbackIngest_apply, if_pos (Or.inr rfl)] at hidx
    exact ⟨hpack.symm, hidx.symm⟩
  · rintro ⟨hpack, hidx⟩ name hext
    rw [rollbackIngest_apply]
    split
    · rename_i hnamed
      rcases hnamed with rfl | rfl
      · exact hpack.symm
      · exact hidx.symm
    · rename_i hother
      obtain ⟨hnp, hni⟩ := not_or.mp hother
      rw [hsame name hext, PackDir.install_ne _ _ hni, PackDir.install_ne _ _ hnp]

end Mizzle.GitCli
