import Mizzle.Backend.Sql.Objects

/-!
# The parent rows of ingested commits

`ingest_pack` inserts a row for each parent unless its key (repository, commit, position) is taken.
Since the oid determines the commit, a taken key holds the same row, as long as the positions of a
commit differ as `i32`: the rows of a table that only ingests have filled are those of the ingested
commits (`mem_commitParents_ingestPack_iff`).
-/

namespace Mizzle.Sql

open Lib

variable (content : ObjectId → ObjectContent)

/-- The position of every parent of every commit fits in 32 bits. -/
def FewParents : Prop := ∀ c, (content c).parents.length ≤ 2 ^ 32

/-- Every row is one that an ingest of its commit writes. -/
def RowsIngested (t : ParentTable) : Prop :=
  ∀ row ∈ t.rows, ∃ c, row ∈ parentRows content row.repoId c

variable {content}

variable {repo : Int} {c : ObjectId} {row : ParentRow}

theorem mem_parentRows : row ∈ parentRows content repo c ↔
      ∃ parent i, (content c).parents[i]? = some parent ∧ row =
        ⟨repo, c.bytes, parent.bytes, (Int32.ofNat i).toInt⟩ := by
  simp only [parentRows, List.mem_map, Prod.exists, List.mem_zipIdx_iff_getElem?]
  exact exists₂_congr fun parent i => and_congr_right fun _ => eq_comm

theorem toInt_ofNat_inj {i j : Nat} (hi : i < 2 ^ 32) (hj : j < 2 ^ 32)
    (h : (Int32.ofNat i).toInt = (Int32.ofNat j).toInt) : i = j := by
  have hsame := Int32.toInt_inj.mp h
  have hbits : i % 2 ^ 32 = j % 2 ^ 32 := by simpa using congrArg (fun x => x.toUInt32.toNat) hsame
  rwa [Nat.mod_eq_of_lt hi, Nat.mod_eq_of_lt hj] at hbits

theorem parentRows_unique (hfew : FewParents content) {repo repo' : Int} {c c' : ObjectId}
    {row row' : ParentRow} (h : row ∈ parentRows content repo c)
    (h' : row' ∈ parentRows content repo' c')
    (hkey : (row.repoId, row.commitOid, row.position) =
      (row'.repoId, row'.commitOid, row'.position)) : row = row' := by
  obtain ⟨parent, i, hi, rfl⟩ := mem_parentRows.mp h
  obtain ⟨parent', j, hj, rfl⟩ := mem_parentRows.mp h'
  obtain ⟨rfl, hcommit, hpos⟩ : repo = repo' ∧ c.bytes = c'.bytes ∧ (Int32.ofNat i).toInt = (Int32.ofNat j).toInt := by
    simpa using hkey
  obtain rfl := ObjectId.ext_bytes hcommit
  have hlt : ∀ {k : Nat} {q : ObjectId}, (content c).parents[k]? = some q → k < 2 ^ 32 := fun hk =>
    (List.getElem?_eq_some_iff.mp hk).1.trans_le (hfew c)
  obtain rfl := toInt_ofNat_inj (hlt hi) (hlt hj) hpos
  obtain rfl : parent = parent' := by simpa using hi.symm.trans hj
  rfl

theorem mem_insertOrIgnore_iff (hfew : FewParents content) {t : ParentTable}
    (ht : RowsIngested content t) (hrow : row ∈ parentRows content repo c) {r : ParentRow} :
    r ∈ (t.insertOrIgnore row).rows ↔ r ∈ t.rows ∨ r = row := by
  rw [Table.insertOrIgnore, Table.insert]
  split
  · rename_i htaken
    obtain ⟨row', hrow', hkey⟩ := List.mem_map.mp htaken
    obtain ⟨c', hc'⟩ := ht row' hrow'
    obtain rfl := parentRows_unique hfew hc' hrow hkey
    refine ⟨Or.inl, ?_⟩
    rintro (hr | rfl)
    · exact hr
    · exact hrow'
  · simp

theorem RowsIngested.insertOrIgnore (hfew : FewParents content) {t : ParentTable}
    (ht : RowsIngested content t) (hrow : row ∈ parentRows content repo c) :
    RowsIngested content (t.insertOrIgnore row) := by
  intro r hr
  rcases (mem_insertOrIgnore_iff hfew ht hrow).mp hr with hr | rfl
  · exact ht r hr
  · obtain ⟨parent, i, hi, rfl⟩ := mem_parentRows.mp hrow
    exact ⟨c, hrow⟩

theorem mem_insertAll_iff (hfew : FewParents content) {repo : Int} {c : ObjectId}
    {rows : List ParentRow} (hrows : ∀ row ∈ rows, row ∈ parentRows content repo c)
    {t : ParentTable} (ht : RowsIngested content t) :
    RowsIngested content (rows.foldl Table.insertOrIgnore t) ∧
      ∀ r, r ∈ (rows.foldl Table.insertOrIgnore t).rows ↔ r ∈ t.rows ∨ r ∈ rows := by
  induction rows generalizing t with
  | nil => exact ⟨ht, fun r => by simp⟩
  | cons row rows ih =>
    have hrow := hrows row List.mem_cons_self
    obtain ⟨hkeep, hmem⟩ := ih (fun x hx => hrows x (List.mem_cons_of_mem _ hx)) (ht.insertOrIgnore hfew hrow)
    refine ⟨hkeep, fun r => ?_⟩
    rw [List.foldl_cons, hmem, mem_insertOrIgnore_iff hfew ht hrow, List.mem_cons, or_assoc]

/-- **An ingest adds the parent rows of its commits.** -/
theorem mem_commitParents_ingestPack_iff (hfew : FewParents content) {db : Db}
    (hdb : RowsIngested content db.commitParents) (repo : Int) (oids : List ObjectId) :
    RowsIngested content (ingestPack content db repo oids).commitParents ∧
      ∀ r, r ∈ (ingestPack content db repo oids).commitParents.rows ↔
        r ∈ db.commitParents.rows ∨ ∃ c ∈ oids, r ∈ parentRows content repo c := by
  induction oids generalizing db with
  | nil => exact ⟨hdb, fun r => by simp [ingestPack]⟩
  | cons c oids ih =>
    obtain ⟨hone, hmem⟩ := @mem_insertAll_iff content hfew repo c (parentRows content repo c) (fun _ h => h) _ hdb
    obtain ⟨hkeep, hall⟩ := @ih (insertObject content repo db c) hone
    refine ⟨hkeep, fun r => (hall r).trans ?_⟩
    rw [insertObject, hmem]
    simp [or_assoc]

theorem mem_parentOids_ingestPack_iff (hfew : FewParents content) {db : Db}
    (hdb : RowsIngested content db.commitParents) (repo : Int) (oids : List ObjectId) (c : ObjectId)
    (b : Bytes) :
    b ∈ parentOids (ingestPack content db repo oids) repo c.bytes ↔
      b ∈ parentOids db repo c.bytes ∨ c ∈ oids ∧ ∃ q ∈ (content c).parents, q.bytes = b := by
  rw [mem_parentOids, mem_parentOids]
  simp only [(mem_commitParents_ingestPack_iff hfew hdb repo oids).2, or_and_right, exists_or]
  refine or_congr_right ⟨?_, ?_⟩
  · rintro ⟨r, ⟨c', hc', hr⟩, -, hcommit, rfl⟩
    obtain ⟨parent, i, hi, rfl⟩ := mem_parentRows.mp hr
    obtain rfl := ObjectId.ext_bytes hcommit
    exact ⟨hc', parent, List.mem_of_getElem? hi, rfl⟩
  · rintro ⟨hc, q, hq, rfl⟩
    obtain ⟨i, hi⟩ := List.mem_iff_getElem?.mp hq
    exact ⟨_, ⟨c, hc, mem_parentRows.mpr ⟨q, i, hi, rfl⟩⟩, rfl, rfl, rfl⟩

end Mizzle.Sql
