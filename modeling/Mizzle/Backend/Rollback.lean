import Mizzle.Backend.GitCli.Ingest
import Mizzle.Backend.Gitoxide.Ingest

/-!
# Rejected pushes on the filesystem backends

"A rejected push leaves no trace in the object store" (`design/auth.md`, principle 2), for pushes
one at a time: an ingest that gave a handle, and then the rollback of that handle. The gitoxide
handle knows which of its two files were moved into place, so its rollback restores the directory.
The handle of the command-line backend does not, and its rollback removes a pack that was installed
before the push.
-/

namespace Mizzle

open Lib

/-- **When a rollback restores the object store.** On the gitoxide backend always; on the
command-line backend exactly when neither the pack nor the index of the staged content was there
before. -/
theorem rollback_restores_iff (dir : PackDir) (staged : Bytes)
    (writeToDirectory : PackDir → Bytes → Option (List (String × Bytes)))
    (indexPack : PackDir → Bytes → GitCli.IndexPackOutput) (hash : PackDir → Bytes → String)
    (hspec : GitCli.IndexPackSpec indexPack hash) :
    (∀ dir' w, Gitoxide.ingestPackSync writeToDirectory dir staged = (dir', .ok (some w)) →
      (Gitoxide.rollbackIngest dir' w).SamePacks dir) ∧
    ∀ dir' w, GitCli.ingestPackSync indexPack dir staged = (dir', .ok (some w)) →
      ((GitCli.rollbackIngest dir' w).SamePacks dir ↔
        dir (GitCli.packFile (hash dir staged)) = none ∧ dir (GitCli.idxFile (hash dir staged)) = none) := by
  constructor
  · intro dir' w h
    obtain ⟨pack, index, rfl, rfl, -, -⟩ := Gitoxide.ingestPackSync_some h
    rw [Gitoxide.rollback_installFiles]
    exact fun _ _ => rfl
  · intro dir' w h
    exact GitCli.samePacks_rollbackIngest_iff hspec h

/-- The header of a pack with one object. -/
def sampleStaged : Bytes := utf8 "PACK" ++ [0, 0, 0, 2, 0, 0, 0, 1]

/-- The pack library and `git index-pack` on a pack with hash `1f`; the contents do not matter. -/
def sampleWrite : PackDir → Bytes → Option (List (String × Bytes)) :=
  fun _ _ => some [("pack-1f.idx", [1]), ("pack-1f.pack", [0])]

def sampleIndexPack (dir : PackDir) (_ : Bytes) : GitCli.IndexPackOutput :=
  ⟨true, ((dir.install ("pack-1f.pack", [0])).1.install ("pack-1f.idx", [1])).1, "pack\t1f\n", ""⟩

theorem sampleIndexPack_spec : GitCli.IndexPackSpec sampleIndexPack fun _ _ => "1f" where
  hash_ne _ _ := by simp
  hash_hex _ _ := by simp [GitCli.isHexDigit]
  prints _ _ _ := rfl
  writes dir _ _ := ⟨[0], [1], fun _ _ => rfl⟩

/-- The directory in which the pack is installed already. -/
def sampleDir : PackDir :=
  PackDir.write (PackDir.write (fun _ => none) "pack-1f.pack" [0]) "pack-1f.idx" [1]

/-- A pack that both backends restore: the first finds it installed, for the second it is new. -/
theorem rollback_restores_samples :
    (∃ dir' w, Gitoxide.ingestPackSync sampleWrite sampleDir sampleStaged = (dir', .ok (some w)) ∧
      (Gitoxide.rollbackIngest dir' w).SamePacks sampleDir) ∧
    ∃ dir' w, GitCli.ingestPackSync sampleIndexPack (fun _ => none) sampleStaged = (dir', .ok (some w)) ∧
      (GitCli.rollbackIngest dir' w).SamePacks fun _ => none := by
  have hgitoxide := (rollback_restores_iff sampleDir sampleStaged sampleWrite _ _ sampleIndexPack_spec).1
  have hcli := (rollback_restores_iff (fun _ => none) sampleStaged sampleWrite _ _ sampleIndexPack_spec).2
  have hfirst : (Gitoxide.ingestPackSync sampleWrite sampleDir sampleStaged).2
      = .ok (some ⟨"pack-1f.pack", "pack-1f.idx", false, false⟩) := by decide +kernel
  have hsecond : (GitCli.ingestPackSync sampleIndexPack (fun _ => none) sampleStaged).2
      = .ok (some ⟨"pack-1f.pack", "pack-1f.idx"⟩) := by decide +kernel
  refine ⟨⟨_, _, Prod.ext rfl hfirst, hgitoxide _ _ (Prod.ext rfl hfirst)⟩,
    ⟨_, _, Prod.ext rfl hsecond, ?_⟩⟩
  exact (hcli _ _ (Prod.ext rfl hsecond)).mpr ⟨rfl, rfl⟩

/-- The same content pushed again and rejected: the command-line backend removes the installed
pack. -/
theorem rollback_removes_installed :
    GitCli.IndexPackSpec sampleIndexPack (fun _ _ => "1f") ∧
    ∃ dir' w, GitCli.ingestPackSync sampleIndexPack sampleDir sampleStaged = (dir', .ok (some w)) ∧
      sampleDir "pack-1f.pack" = some [0] ∧ sampleDir "pack-1f.idx" = some [1] ∧
      GitCli.rollbackIngest dir' w "pack-1f.pack" = none ∧ GitCli.rollbackIngest dir' w "pack-1f.idx" = none := by
  have hingest : (GitCli.ingestPackSync sampleIndexPack sampleDir sampleStaged).2
      = .ok (some ⟨"pack-1f.pack", "pack-1f.idx"⟩) := by decide +kernel
  refine ⟨sampleIndexPack_spec, _, _, Prod.ext rfl hingest, ?_⟩
  decide +kernel

end Mizzle
