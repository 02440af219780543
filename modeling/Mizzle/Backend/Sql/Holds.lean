import Mizzle.Backend.Sql.BuildPack
import Mizzle.Pack.Partial

/-!
# A store among the rows of the SQL backend

`Holds` says that the tables have the rows of a store, whatever else they have. What `build_pack`
selects for a request inside the store is then determined by the store (`Holds.selectObjects_ends`):
it reads what it would read if all other rows of the repository were deleted (`restrict`). And since
an ingest ignores keys that are taken, the rows of a store that is there complete with its parent
rows are never changed (`Holds.ingestPack`).
-/

namespace Mizzle.Sql

open Lib Pack

variable (content : ObjectId → ObjectContent) (p : Parser)

/-- The tables have a row for each object of the store, its parents, and a row for every position of
a parent that an ingest of the object would write. -/
structure Holds (o : Objects) (db : Db) (repoDbId : Int) : Prop where
  found : ∀ {oid obj}, o.find oid = some obj →
    ∃ row kind, db.objects.lookup (repoDbId, oid.bytes) = some row ∧ row.kind = kindInt kind ∧
      p.Reads obj kind row.data
  parents : ∀ c, o.find c ≠ none → ∀ b, b ∈ parentOids db repoDbId c.bytes ↔ ∃ q ∈ o.parents c, q.bytes = b
  written : ∀ c, o.find c ≠ none → ∀ row ∈ parentRows content repoDbId c,
    db.commitParents.lookup (row.repoId, row.commitOid, row.position) ≠ none

/-! ### The rows of the store alone -/

/-- The key is that of an object of the store. -/
def inStore (o : Objects) (repoDbId repoId : Int) (oid : Bytes) : Bool :=
  repoId = repoDbId && ((ObjectId.tryFrom oid).bind o.find).isSome

/-- The tables without the rows of other objects. -/
def restrict (o : Objects) (repoDbId : Int) (db : Db) : Db :=
  { db with
    objects := db.objects.deleteWhere fun row => !inStore o repoDbId row.repoId row.oid
    commitParents := db.commitParents.deleteWhere fun row => !inStore o repoDbId row.repoId row.commitOid }

variable {content p} {o : Objects} {db : Db} {repo : Int}

theorem inStore_bytes (x : ObjectId) : inStore o repo repo x.bytes = (o.find x).isSome := by
  simp [inStore]

theorem lookup_restrict {x : ObjectId} (hx : o.find x ≠ none) :
    (restrict o repo db).objects.lookup (repo, x.bytes) = db.objects.lookup (repo, x.bytes) := by
  rw [restrict, Table.lookup_deleteWhere]
  cases hrow : db.objects.lookup (repo, x.bytes) with
  | none => rfl
  | some row =>
    obtain ⟨-, hkey⟩ := Table.lookup_eq_some.mp hrow
    obtain ⟨hrepo, hoid⟩ := Prod.mk.inj hkey
    simp [hrepo, hoid, inStore_bytes, Option.isSome_iff_ne_none, hx]

theorem lookup_restrict_none {x : ObjectId} (hx : o.find x = none) :
    (restrict o repo db).objects.lookup (repo, x.bytes) = none := by
  rw [restrict, Table.lookup_deleteWhere, Option.filter_eq_none_iff]
  intro row hrow
  obtain ⟨-, hkey⟩ := Table.lookup_eq_some.mp hrow
  obtain ⟨hrepo, hoid⟩ := Prod.mk.inj hkey
  simp [hrepo, hoid, inStore_bytes, hx]

variable {c : ObjectId} {t : ParentTable}

theorem rows_restrict (hc : o.find c ≠ none) :
    ((restrict o repo db).commitParents.rows.filter fun r =>
      r.repoId = repo ∧ r.commitOid = c.bytes)
      = db.commitParents.rows.filter fun r => r.repoId = repo ∧ r.commitOid = c.bytes := by
  simp only [restrict, Table.deleteWhere]
  rw [List.filter_filter]
  refine List.filter_congr fun r _ => ?_
  by_cases hr : r.repoId = repo ∧ r.commitOid = c.bytes
  · simp [hr.1, hr.2, inStore_bytes, Option.isSome_iff_ne_none, hc]
  · simp [hr]

theorem parentOids_restrict (hc : o.find c ≠ none) :
    parentOids (restrict o repo db) repo c.bytes = parentOids db repo c.bytes := by
  rw [parentOids, rows_restrict hc, parentOids]

theorem parentOids_restrict_none (hc : o.find c = none) :
    parentOids (restrict o repo db) repo c.bytes = [] := by
  refine List.eq_nil_iff_forall_not_mem.mpr fun b hb => ?_
  obtain ⟨r, hr, hrepo, hcommit, -⟩ := mem_parentOids.mp hb
  rw [restrict, Table.deleteWhere] at hr
  have hin := (List.mem_filter.mp hr).2
  simp [hrepo, hcommit, inStore_bytes, hc] at hin

theorem fetchParents_restrict (hc : o.find c ≠ none) :
    fetchParents (restrict o repo db) repo c = fetchParents db repo c := by
  rw [fetchParents, rows_restrict hc, fetchParents]

theorem treeItems_restrict {t : ObjectId} (ht : o.find t ≠ none) :
    treeItems p (restrict o repo db) repo t = treeItems p db repo t := by
  rw [treeItems, lookup_restrict ht, treeItems]

/-! ### Walks inside the store -/

namespace Holds

theorem stores (h : Holds content p o db repo) : Stores p o (restrict o repo db) repo where
  found hfind := by
    obtain ⟨row, kind, hrow, hreads⟩ := h.found hfind
    exact ⟨row, kind, (lookup_restrict (by simp [hfind])).trans hrow, hreads⟩
  absent hfind := lookup_restrict_none hfind
  parents c b := by
    by_cases hc : o.find c = none
    · simp [parentOids_restrict_none hc, Objects.parents, hc]
    · rw [parentOids_restrict hc]
      exact h.parents c hc b

theorem find_of_mem_parentOids (h : Holds content p o db repo) (hclosed : o.Closed)
    (hc : o.find c ≠ none) {b : Bytes} (hb : b ∈ parentOids db repo c.bytes) :
    ∃ q, o.find q ≠ none ∧ q.bytes = b := by
  obtain ⟨q, hq, rfl⟩ := (h.parents c hc b).mp hb
  exact ⟨q, (hclosed.isCommit_parent hq).find_ne_none, rfl⟩

theorem collectAncestors_eq (h : Holds content p o db repo) (hclosed : o.Closed) (fuel : Nat)
    (set : Finset ObjectId) (hc : o.find c ≠ none) :
    collectAncestors fuel db repo set c =
      collectAncestors fuel (restrict o repo db) repo set c := by
  have hrows : rows (parentOids db repo) fuel [c.bytes] =
      rows (parentOids (restrict o repo db) repo) fuel [c.bytes] := by
    refine @rows_congr _ _ _ (fun b => ∃ q, o.find q ≠ none ∧ q.bytes = b) ?_ ?_ fuel _ ?_
    · rintro b ⟨q, hq, rfl⟩
      exact (parentOids_restrict hq).symm
    · rintro b ⟨q, hq, rfl⟩ b' hb'
      exact h.find_of_mem_parentOids hclosed hq hb'
    · intro b hb
      exact ⟨c, hc, (List.mem_singleton.mp hb).symm⟩
  rw [collectAncestors, hrows, collectAncestors]

theorem mem_fetchParents (h : Holds content p o db repo) (hclosed : o.Closed) (hc : o.find c ≠ none)
    {ps : List ObjectId} (hps : fetchParents db repo c = .ok ps) {q : ObjectId} (hq : q ∈ ps) :
    o.find q ≠ none := by
  obtain ⟨ps', hps', hmem⟩ := h.stores.parents.fetchParents_ok c
  rw [fetchParents_restrict hc, hps] at hps'
  obtain rfl := Except.ok.inj hps'
  obtain ⟨t, ps'', hfind⟩ := hclosed.isCommit_parent ((hmem q).mp hq)
  simp [hfind]

theorem reachableExcluding_eq (h : Holds content p o db repo) (hclosed : o.Closed) (fuel : Nat)
    {tips excluding : List ObjectId} (htips : ∀ c ∈ tips, o.find c ≠ none)
    (hexcluding : ∀ c ∈ excluding, o.find c ≠ none) :
    reachableExcluding fuel db repo tips excluding none =
      reachableExcluding fuel (restrict o repo db) repo tips excluding none := by
  have hcollect : ∀ set, excluding.foldlM (collectAncestors fuel db repo) set
      = excluding.foldlM (collectAncestors fuel (restrict o repo db) repo) set := by
    refine Outcome.foldlM_congr fun c hc set => ?_
    exact h.collectAncestors_eq hclosed fuel set (hexcluding c hc)
  have hwalk : ∀ exclude, walkFrom (fetchParents db repo) exclude (fun _ taken => overCap none taken) fuel tips
      = walkFrom (fetchParents (restrict o repo db) repo) exclude (fun _ taken => overCap none taken) fuel tips := by
    intro exclude
    exact walkFrom_congr (fun c hc => (fetchParents_restrict hc).symm)
      (fun c ps hc hps q hq => h.mem_fetchParents hclosed hc hps hq) exclude fuel htips
  rw [reachableExcluding, reachableExcluding, hcollect]
  simp only [hwalk]

theorem agreeOn (h : Holds content p o db repo) (hclosed : o.Closed) (fuel : Nat)
    {wants haves : List ObjectId} (hwants : ∀ w ∈ wants, o.find w ≠ none)
    (hhaves : ∀ c ∈ haves, o.find c ≠ none) :
    Database.AgreeOn (database p fuel (restrict o repo db) repo) (database p fuel db repo) o
      wants haves where
  wantWalk := h.reachableExcluding_eq hclosed fuel hwants hhaves
  haveWalk := h.reachableExcluding_eq hclosed fuel hhaves fun c hc => absurd hc List.not_mem_nil
  commitTree c hc := by
    simp only [database]
    rw [commitTree, commitTree, lookup_restrict hc]
  collect set t ht := by
    refine collect_congr (fun x hx => (treeItems_restrict hx).symm) (fun x is hx his y hy => ?_) fuel set ht
    rw [← treeItems_restrict hx, h.stores.treeItems_eq] at his
    obtain rfl := Except.ok.inj his
    obtain ⟨es, hes⟩ := (hclosed.separates x y).1 hy
    simp [hes]
  fetch x hx := by
    simp only [database, fetchObject]
    rw [lookup_restrict hx]

/-- **What is selected is what the store says**, whatever other rows there are. -/
theorem selectObjects_ends (h : Holds content p o db repo) (hsealed : o.Sealed p)
    {wants haves : List ObjectId} (hwants : ∀ w ∈ wants, o.find w ≠ none)
    (hhaves : ∀ c ∈ haves, o.IsCommit c) :
    Outcome.Ends (fun fuel => (database p fuel db repo).selectObjects wants haves)
      fun selected => ∀ x, x ∈ selected ↔ o.SelectedDb p wants haves x :=
  Database.AgreeOn.selectObjects_ends hsealed
    (h.stores.serves hsealed.closed hsealed.acyclic wants haves)
    (fun fuel => h.agreeOn hsealed.closed fuel hwants fun c hc => (hhaves c hc).find_ne_none)
    hwants hhaves

end Holds

/-! ### Ingests -/

theorem lookup_foldl_insertOrIgnore {key : Int × Bytes × Int} (h : t.lookup key ≠ none)
    (rows : List ParentRow) : (rows.foldl Table.insertOrIgnore t).lookup key ≠ none := by
  induction rows generalizing t with
  | nil => exact h
  | cons row rows ih =>
    refine ih ?_
    rw [Table.lookup_insertOrIgnore]
    cases hrow : t.lookup key with
    | none => exact absurd hrow h
    | some r => simp

theorem mem_of_mem_insertOrIgnore {row r : ParentRow} (hr : r ∈ (t.insertOrIgnore row).rows)
    (htaken : r = row → t.lookup (row.repoId, row.commitOid, row.position) ≠ none) :
    r ∈ t.rows := by
  rw [Table.insertOrIgnore] at hr
  cases hinsert : t.insert row with
  | none => simpa [hinsert] using hr
  | some t' =>
    rw [hinsert, Option.getD_some] at hr
    rw [Table.insert] at hinsert
    split at hinsert
    · simp at hinsert
    · rename_i hfree
      obtain rfl := Option.some.inj hinsert
      rcases List.mem_append.mp hr with hr | hr
      · exact hr
      · obtain ⟨q, hq⟩ := Option.ne_none_iff_exists'.mp (htaken (List.mem_singleton.mp hr))
        obtain ⟨hmem, hkey⟩ := Table.lookup_eq_some.mp hq
        exact absurd (List.mem_map.mpr ⟨q, hmem, hkey⟩) hfree

theorem mem_of_mem_foldl {rows : List ParentRow} {r : ParentRow}
    (hr : r ∈ (rows.foldl Table.insertOrIgnore t).rows)
    (htaken : r ∈ rows → t.lookup (r.repoId, r.commitOid, r.position) ≠ none) : r ∈ t.rows := by
  induction rows generalizing t with
  | nil => exact hr
  | cons row rows ih =>
    have hnext : r ∈ (t.insertOrIgnore row).rows :=
      ih hr fun hmem => lookup_foldl_insertOrIgnore (htaken (List.mem_cons_of_mem _ hmem)) [row]
    refine mem_of_mem_insertOrIgnore hnext ?_
    rintro rfl
    exact htaken List.mem_cons_self

theorem Holds.insertObject (h : Holds content p o db repo) (y : ObjectId) :
    Holds content p o (insertObject content repo db y) repo where
  found {oid obj} hfind := by
    obtain ⟨row, kind, hrow, hreads⟩ := h.found hfind
    refine ⟨row, kind, ?_, hreads⟩
    have hlookup := lookup_ingestPack content db repo [y] oid
    rw [hrow, Option.some_or] at hlookup
    exact hlookup
  parents c hc b := by
    rw [← h.parents c hc b, mem_parentOids, mem_parentOids]
    constructor
    · rintro ⟨r, hr, hrepo, hcommit, rfl⟩
      refine ⟨r, mem_of_mem_foldl hr fun hmem => ?_, hrepo, hcommit, rfl⟩
      -- a row of the commit itself: an ingest finds its key taken
      have hy : y.bytes = r.commitOid := by
        obtain ⟨⟨parent, i⟩, -, rfl⟩ := List.mem_map.mp hmem
        rfl
      obtain rfl := ObjectId.ext_bytes (hy.trans hcommit)
      exact h.written y hc r hmem
    · rintro ⟨r, hr, hkey⟩
      exact ⟨r, mem_foldl_insertOrIgnore hr _, hkey⟩
  written c hc row hrow := lookup_foldl_insertOrIgnore (h.written c hc row hrow) _

/-- **A store that is there stays as it is.** -/
theorem Holds.ingestPack (h : Holds content p o db repo) (oids : List ObjectId) :
    Holds content p o (ingestPack content db repo oids) repo := by
  induction oids generalizing db with
  | nil => exact h
  | cons y oids ih => exact ih (h.insertObject y)

end Mizzle.Sql
