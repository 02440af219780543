import Mizzle.Backend.Sql.Graph
import Mizzle.Backend.Types

/-!
# Ingest of the SQL backend

`ingest_pack` of `mizzle/src/backend/sql/objects.rs`: one transaction that inserts a row for every
object of the pack and a row for every parent of a commit, ignoring rows whose key is taken. As in
the KV backend, a pack is given by its oids and `content` says what they stand for. Rows are never
removed, so the parent graph only grows.
-/

namespace Mizzle.Sql

open Lib

def kindInt : ObjectType → Int
  | .blob => 0
  | .tree => 1
  | .commit => 2
  | .tag => 3

variable (content : ObjectId → ObjectContent)

/-- The rows for the parents of a commit; a position is an `i32`. -/
def parentRows (repoDbId : Int) (oid : ObjectId) : List ParentRow :=
  (content oid).parents.zipIdx.map fun (parent, i) => ⟨repoDbId, oid.bytes, parent.bytes, (Int32.ofNat i).toInt⟩

/-- One round of the loop: the object, then its parents. -/
def insertObject (repoDbId : Int) (db : Db) (oid : ObjectId) : Db :=
  { db with
    objects := db.objects.insertOrIgnore
      ⟨repoDbId, oid.bytes, kindInt (content oid).kind, (content oid).data⟩
    commitParents := (parentRows content repoDbId oid).foldl Table.insertOrIgnore db.commitParents }

/-- `ingest_pack`, for the objects of the pack. -/
def ingestPack (db : Db) (repoDbId : Int) (oids : List ObjectId) : Db :=
  oids.foldl (insertObject content repoDbId) db

theorem refs_ingestPack (db : Db) (repo : Int) (oids : List ObjectId) :
    (ingestPack content db repo oids).refs = db.refs := by
  induction oids generalizing db with
  | nil => rfl
  | cons oid oids ih => exact ih (insertObject content repo db oid)

def objectRow (repoDbId : Int) (oid : ObjectId) : ObjectRow :=
  ⟨repoDbId, oid.bytes, kindInt (content oid).kind, (content oid).data⟩

/-- **An ingest adds the objects of the pack** that are not there, and changes nothing else. -/
theorem lookup_ingestPack (db : Db) (repo : Int) (oids : List ObjectId) (oid : ObjectId) :
    (ingestPack content db repo oids).objects.lookup (repo, oid.bytes) =
      (db.objects.lookup (repo, oid.bytes)).or (if oid ∈ oids then some (objectRow content repo oid) else none) := by
  induction oids generalizing db with
  | nil => simp [ingestPack]
  | cons o oids ih =>
    have hone := Table.lookup_insertOrIgnore db.objects (objectRow content repo o) (repo, oid.bytes)
    have hrest := ih (insertObject content repo db o)
    have hkey : (repo, oid.bytes) = ((objectRow content repo o).repoId, (objectRow content repo o).oid) ↔ oid = o := by
      simpa [objectRow] using ⟨ObjectId.ext_bytes, congrArg _⟩
    refine hrest.trans ?_
    rw [insertObject, ← objectRow, hone, Option.or_assoc]
    congr 1
    by_cases ho : oid = o
    · subst ho
      rw [if_pos (hkey.mpr rfl), Option.some_or, if_pos List.mem_cons_self]
    · rw [if_neg (fun h => ho (hkey.mp h)), Option.none_or]
      simp [ho]

/-- `has_object`. -/
def hasObject (db : Db) (repoDbId : Int) (oid : ObjectId) : Bool :=
  (db.objects.lookup (repoDbId, oid.bytes)).isSome

theorem hasObject_ingestPack (db : Db) (repo : Int) (oids : List ObjectId) (oid : ObjectId) :
    hasObject (ingestPack content db repo oids) repo oid = true ↔ hasObject db repo oid = true ∨
      oid ∈ oids := by
  rw [hasObject, lookup_ingestPack, Option.isSome_or, Bool.or_eq_true, hasObject]
  refine or_congr_right ?_
  split <;> simp_all

theorem mem_foldl_insertOrIgnore {t : ParentTable} {row : ParentRow} (h : row ∈ t.rows)
    (rows : List ParentRow) : row ∈ (rows.foldl Table.insertOrIgnore t).rows := by
  induction rows generalizing t with
  | nil => exact h
  | cons r rows ih => exact ih (Table.mem_insertOrIgnore h)

theorem mem_commitParents_ingestPack {db : Db} {row : ParentRow} (h : row ∈ db.commitParents.rows)
    (repo : Int) (oids : List ObjectId) :
    row ∈ (ingestPack content db repo oids).commitParents.rows := by
  induction oids generalizing db with
  | nil => exact h
  | cons oid oids ih =>
    have hone : row ∈ (insertObject content repo db oid).commitParents.rows := mem_foldl_insertOrIgnore h _
    exact ih hone

/-- **An ingest only adds edges** to the parent graph of any repository. -/
theorem mem_parentOids_ingestPack {db : Db} {repo' : Int} {c p : Bytes}
    (h : p ∈ parentOids db repo' c) (repo : Int) (oids : List ObjectId) :
    p ∈ parentOids (ingestPack content db repo oids) repo' c := by
  obtain ⟨row, hrow, hkey⟩ := mem_parentOids.mp h
  exact mem_parentOids.mpr ⟨row, mem_commitParents_ingestPack content hrow repo oids, hkey⟩

end Mizzle.Sql
