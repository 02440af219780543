import Mizzle.Backend.Sql.Refs
import Mizzle.Lib.Walk

/-!
# The parent graph of the SQL backend

`mizzle/src/backend/sql/graph.rs`, as far as pushes are classified with it. `is_ancestor` is one
recursive query: its rows are the descendant, then the parents of every row that is taken up,
without removal of duplicates (`UNION ALL`), and `EXISTS` asks whether the ancestor is a row. The
rows are enumerated one after the other and the query answers at the first hit; `fuel` bounds the
number of rows looked at, and `none` is a query that has not answered by then (on a table with a
cycle it may never answer).
-/

namespace Mizzle.Sql

open Lib

/-- `SELECT cp.parent_oid FROM commit_parents cp WHERE cp.repo_id = ? AND cp.commit_oid = ?`. -/
def parentOids (db : Db) (repoDbId : Int) (commitOid : Bytes) : List Bytes :=
  (db.commitParents.rows.filter fun r => r.repoId = repoDbId ∧ r.commitOid = commitOid).map ParentRow.parentOid

/-- `is_ancestor`: the recursive query, with the descendant as its first row. -/
def isAncestor (fuel : Nat) (db : Db) (repoDbId : Int) (ancestor descendant : ObjectId) :
    Option Bool :=
  enumerate (parentOids db repoDbId) ancestor.bytes fuel [descendant.bytes]

/-- `compute_push_kind`: the query runs only when neither oid is null. -/
def computePushKind (fuel : Nat) (db : Db) (repoDbId : Int) (oldOid newOid : ObjectId) :
    Option PushKind :=
  if oldOid.isNull ∨ newOid.isNull then some (PushKind.classify oldOid newOid false)
  else (isAncestor fuel db repoDbId oldOid newOid).map (PushKind.classify oldOid newOid)

theorem mem_parentOids {db : Db} {repo : Int} {c p : Bytes} :
    p ∈ parentOids db repo c ↔ ∃ r ∈ db.commitParents.rows, r.repoId = repo ∧ r.commitOid = c ∧
      r.parentOid = p := by
  simp [parentOids, and_assoc]

theorem computePushKind_some {fuel : Nat} {db : Db} {repo : Int} {old new : ObjectId}
    {kind : PushKind} (h : computePushKind fuel db repo old new = some kind) :
    ∃ b, kind = PushKind.classify old new b := by
  rw [computePushKind] at h
  split at h
  · exact ⟨false, (Option.some.inj h).symm⟩
  · obtain ⟨b, -, hb⟩ := Option.map_eq_some_iff.mp h
    exact ⟨b, hb.symm⟩

end Mizzle.Sql
