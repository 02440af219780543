import Mizzle.Backend.Sql.Objects
import Mizzle.Backend.Sql.Reachable
import Mizzle.Pack.Database

/-!
# Pack assembly of the SQL backend

What `build_pack` of `mizzle/src/backend/sql/objects.rs` asks of the tables on a cache miss. The
data of a commit is read without a look at the kind of the row; `collect_tree_oids` marks a tree
before it reads it, goes into the subtrees one after the other, and takes an oid without a tree row
for one without entries.
-/

namespace Mizzle.Sql

open Lib Pack

variable (p : Parser)

/-- The tree of an object whose data reads as a commit:
`SELECT data FROM objects WHERE repo_id = ? AND oid = ?`. -/
def commitTree (db : Db) (repoDbId : Int) (oid : ObjectId) : Option ObjectId :=
  (db.objects.lookup (repoDbId, oid.bytes)).bind fun row => p.commitTree row.data

/-- The entries of a tree: `SELECT data FROM objects WHERE repo_id = ? AND oid = ? AND kind = ?`,
parsed. -/
def treeItems (db : Db) (repoDbId : Int) (treeOid : ObjectId) :
    Except String (List (Item ObjectId)) :=
  match db.objects.lookup (repoDbId, treeOid.bytes) with
  | none => .ok []
  | some row =>
    if row.kind = kindInt .tree then
      match p.treeEntries row.data with
      | .ok entries => .ok (entries.map TreeEntry.item)
      | .error _ => .error ("parsing tree " ++ treeOid.toHexString)
    else .ok []

/-- `collect_tree_oids`. -/
def collectTreeOids (fuel : Nat) (db : Db) (repoDbId : Int) (set : Finset ObjectId)
    (treeOid : ObjectId) : Outcome String (Finset ObjectId) :=
  collect (treeItems p db repoDbId) fuel treeOid set

/-- The kind of a row; a row with another number is passed over. -/
def kindOfInt (kind : Int) : Option ObjectType :=
  if kind = 0 then some .blob
  else if kind = 1 then some .tree
  else if kind = 2 then some .commit
  else if kind = 3 then some .tag
  else none

/-- The kind and the data of a row:
`SELECT kind, data FROM objects WHERE repo_id = ? AND oid = ?`. -/
def fetchObject (db : Db) (repoDbId : Int) (oid : ObjectId) : Option (ObjectType × Bytes) :=
  (db.objects.lookup (repoDbId, oid.bytes)).bind fun row => (kindOfInt row.kind).map fun kind => (kind, row.data)

/-- The tables as `build_pack` uses them. -/
def database (fuel : Nat) (db : Db) (repoDbId : Int) : Database where
  reachableExcluding wants haves := reachableExcluding fuel db repoDbId wants haves none
  commitTree oid := .ok (commitTree p db repoDbId oid)
  collectTreeOids := collectTreeOids p fuel db repoDbId
  fetch := fetchObject db repoDbId

/-- The tables hold the store. -/
structure Stores (o : Objects) (db : Db) (repoDbId : Int) : Prop where
  found : ∀ {oid obj}, o.find oid = some obj →
    ∃ row kind, db.objects.lookup (repoDbId, oid.bytes) = some row ∧ row.kind = kindInt kind ∧
      p.Reads obj kind row.data
  absent : ∀ {oid}, o.find oid = none → db.objects.lookup (repoDbId, oid.bytes) = none
  parents : ParentsAre db repoDbId o.parents

variable {p} {o : Objects} {db : Db} {repo : Int}

theorem kindOfInt_kindInt (kind : ObjectType) : kindOfInt (kindInt kind) = some kind := by
  cases kind <;> rfl

namespace Stores

theorem commitTree_eq (h : Stores p o db repo) (c : ObjectId) :
    commitTree p db repo c = o.rootOf p c := by
  rw [commitTree, Objects.rootOf]
  cases hc : o.find c with
  | none => rw [h.absent hc, Option.bind_none, Option.bind_none]
  | some obj =>
    obtain ⟨row, kind, hrow, -, hreads⟩ := h.found hc
    rw [hrow, Option.bind_some, Option.bind_some, hreads.commitTree_eq]

theorem treeItems_eq (h : Stores p o db repo) (t : ObjectId) :
    treeItems p db repo t = .ok (o.items t) := by
  rw [treeItems]
  cases ht : o.find t with
  | none => simp [h.absent ht, Objects.items, ht]
  | some obj =>
    obtain ⟨row, kind, hrow, hkind, hreads⟩ := h.found ht
    have hobj := hreads.kind_eq
    rw [hrow]
    cases obj with
    | tree es =>
      obtain ⟨-, -, hentries⟩ := hreads
      simp [hkind, hobj, GitObject.kind, hentries, Objects.items, ht, GitObject.entries]
    | _ => simp [hkind, hobj, GitObject.kind, kindInt, Objects.items, ht, GitObject.entries]

theorem fetch_iff (h : Stores p o db repo) (x : ObjectId) :
    (fetchObject db repo x).isSome ↔ o.find x ≠ none := by
  rw [fetchObject]
  cases hx : o.find x with
  | none => simp [h.absent hx]
  | some obj =>
    obtain ⟨row, kind, hrow, hkind, -⟩ := h.found hx
    simp [hrow, hkind, kindOfInt_kindInt]

/-- **The tables serve the store**, for every request. -/
theorem serves (h : Stores p o db repo) (hclosed : o.Closed) (hacyclic : Acyclic o.parents)
    (wants haves : List ObjectId) :
    ∃ enough, ∀ fuel, enough ≤ fuel → (database p fuel db repo).Serves p o wants haves := by
  have hfinite : ∀ c q, q ∈ o.parents c → c ∈ o.oids ∧ q ∈ o.oids := hclosed.parents_mem_oids
  obtain ⟨wantEnough, hwants⟩ := h.parents.reachableExcluding_done hacyclic hfinite wants haves
  obtain ⟨haveEnough, hhaves⟩ := h.parents.reachableExcluding_done hacyclic hfinite haves []
  refine ⟨max (max wantEnough haveEnough) (o.oids.card + 2), fun fuel hfuel => ?_⟩
  refine ⟨hwants fuel (by omega), ?_, fun c => congrArg _ (h.commitTree_eq c),
    fun t marks => Database.collect_rootItem hclosed h.treeItems_eq (by omega) t marks, h.fetch_iff⟩
  obtain ⟨oids, hwalk, hmem⟩ := hhaves fuel (by omega)
  exact ⟨oids, hwalk, fun c => by simp [hmem]⟩

end Stores

end Mizzle.Sql
