import Mizzle.Backend.RefMap
import Mizzle.Lib.Table

/-!
# Ref transactions of the SQL backend

`mizzle/src/backend/sql/schema.rs` and `update_refs_owned` of `sql/refs.rs`: every command of a
batch is one statement on the table `refs`, with its compare-and-swap condition in the `WHERE`
clause (the number of affected rows says whether it held) or in the primary key (`INSERT` of a taken
key fails). The statements run in one transaction; an error drops it, and a dropped transaction
leaves the database as it was.

The spec of one statement is `updateRef_of_expects` and `updateRef_of_not_expects`, for commands
that have a non-null oid; a command with two null oids is a `DELETE` of a row that holds the null
oid (`updateRef_both_null`). The batch is `updateRefsOwned_implements`.
-/

namespace Mizzle.Sql

open Lib

/-! ### Schema -/

structure ObjectRow where
  repoId : Int
  oid : Bytes
  kind : Int
  data : Bytes

structure RefRow where
  repoId : Int
  name : String
  oid : Bytes
deriving DecidableEq

structure ParentRow where
  repoId : Int
  commitOid : Bytes
  parentOid : Bytes
  position : Int
deriving DecidableEq

abbrev ObjectTable := Table ObjectRow (Int × Bytes) fun r => (r.repoId, r.oid)
abbrev RefTable := Table RefRow (Int × String) fun r => (r.repoId, r.name)
abbrev ParentTable :=
  Table ParentRow (Int × Bytes × Int) fun r => (r.repoId, r.commitOid, r.position)

/-- The tables that pushes write. -/
structure Db where
  objects : ObjectTable
  refs : RefTable
  commitParents : ParentTable

/-! ### The statements -/

variable {refs : RefMap Int} {repo : Int} {table : RefTable} {name : String} {oid : ObjectId}
  {u : RefUpdate}

inductive UpdateRefsError where
  | stale (refname : String) (expected : ObjectId)
  | alreadyExists (refname : String)
deriving DecidableEq

/-- The error's text; `cause` is the driver's own text for the constraint violation. -/
def UpdateRefsError.message (cause : String) : UpdateRefsError → String
  | .stale refname expected => "stale info for ref " ++ refname ++ ": expected " ++ expected.toHexString
  | .alreadyExists refname => "ref " ++ refname ++ " already exists: " ++ cause

/-- `WHERE repo_id = ? AND name = ? AND oid = ?`. -/
def rowIs (repoDbId : Int) (refname : String) (oid : ObjectId) (r : RefRow) : Bool :=
  r.repoId = repoDbId ∧ r.name = refname ∧ r.oid = oid.bytes

/-- One round of the loop: one statement. -/
def updateRef (repoDbId : Int) (refs : RefTable) (u : RefUpdate) :
    Except UpdateRefsError RefTable :=
  let matching := rowIs repoDbId u.refname u.oldOid
  if u.newOid.isNull then
    if refs.affected matching = 0 then .error (.stale u.refname u.oldOid)
    else .ok (refs.deleteWhere matching)
  else if u.oldOid.isNull then
    match refs.insert ⟨repoDbId, u.refname, u.newOid.bytes⟩ with
    | some refs' => .ok refs'
    | none => .error (.alreadyExists u.refname)
  else
    if refs.affected matching = 0 then .error (.stale u.refname u.oldOid)
    else .ok (refs.updateWhere matching (fun r => { r with oid := u.newOid.bytes }) fun _ => rfl)

/-- `update_refs_owned`: the database afterwards and the result. -/
def updateRefsOwned (db : Db) (repoDbId : Int) (updates : List RefUpdate) :
    Db × Except UpdateRefsError Unit :=
  if updates.isEmpty then (db, .ok ())
  else
    match updates.foldlM (updateRef repoDbId) db.refs with
    | .ok refs => ({ db with refs }, .ok ())
    | .error e => (db, .error e)

/-! ### What a statement sees and leaves -/

/-- The blob stored for a ref. -/
def oidAt (refs : RefTable) (repo : Int) (name : String) : Option Bytes :=
  (refs.lookup (repo, name)).map RefRow.oid

theorem rowIs_iff {r : RefRow} :
    rowIs repo name oid r = true ↔ (r.repoId, r.name) = (repo, name) ∧ r.oid = oid.bytes := by
  simp [rowIs, and_assoc]

theorem affected_rowIs {refs : RefTable} :
    refs.affected (rowIs repo name oid) = 0 ↔ oidAt refs repo name ≠ some oid.bytes := by
  rw [Table.affected_eq_zero, ← not_iff_not, not_not]
  push Not
  rw [oidAt, Option.map_eq_some_iff]
  constructor
  · rintro ⟨r, hr, hrow⟩
    obtain ⟨hkey, hoid⟩ := rowIs_iff.mp hrow
    exact ⟨r, Table.lookup_eq_some.mpr ⟨hr, hkey⟩, hoid⟩
  · rintro ⟨r, hr, hoid⟩
    obtain ⟨hmem, hkey⟩ := Table.lookup_eq_some.mp hr
    exact ⟨r, hmem, rowIs_iff.mpr ⟨hkey, hoid⟩⟩

theorem rowIs_of_lookup {refs : RefTable} (h : oidAt refs repo name = some oid.bytes) {r : Int}
    {n : String} {row : RefRow} (hrow : refs.lookup (r, n) = some row) :
    rowIs repo name oid row = decide (r = repo ∧ n = name) := by
  obtain ⟨-, hkey⟩ := Table.lookup_eq_some.mp hrow
  rw [Bool.eq_iff_iff, rowIs_iff, hkey, Prod.mk.injEq, decide_eq_true_iff]
  constructor
  · exact And.left
  · rintro ⟨rfl, rfl⟩
    rw [oidAt, hrow] at h
    exact ⟨⟨rfl, rfl⟩, Option.some.inj h⟩

theorem oidAt_deleteWhere {refs : RefTable} (h : oidAt refs repo name = some oid.bytes) (r : Int)
    (n : String) : oidAt (refs.deleteWhere (rowIs repo name oid)) r n
      = if r = repo ∧ n = name then none else oidAt refs r n := by
  rw [oidAt, Table.lookup_deleteWhere, oidAt]
  cases hrow : refs.lookup (r, n) with
  | none => simp
  | some row =>
    have hmatch := rowIs_of_lookup h hrow
    by_cases hsame : r = repo ∧ n = name <;> simp [hmatch, hsame]

theorem oidAt_updateWhere {refs : RefTable} (new : Bytes)
    (h : oidAt refs repo name = some oid.bytes) (r : Int) (n : String) :
    oidAt (refs.updateWhere (rowIs repo name oid) (fun r => { r with oid := new }) fun _ => rfl) r n
      = if r = repo ∧ n = name then some new else oidAt refs r n := by
  rw [oidAt, Table.lookup_updateWhere, oidAt]
  cases hrow : refs.lookup (r, n) with
  | none =>
    have hother : ¬ (r = repo ∧ n = name) := by
      rintro ⟨rfl, rfl⟩
      simp [oidAt, hrow] at h
    simp [hother]
  | some row =>
    have hmatch := rowIs_of_lookup h hrow
    by_cases hsame : r = repo ∧ n = name <;> simp [hmatch, hsame]

theorem oidAt_insert {refs refs' : RefTable} {oid : Bytes}
    (h : refs.insert ⟨repo, name, oid⟩ = some refs') (r : Int) (n : String) :
    oidAt refs' r n = if r = repo ∧ n = name then some oid else oidAt refs r n := by
  rw [oidAt, Table.lookup_insert h, oidAt]
  by_cases hsame : r = repo ∧ n = name
  · simp [hsame]
  · simp [hsame, Prod.mk.injEq]

/-! ### Representing a ref map -/

/-- The table holds the refs of the map, twenty bytes each, and no other ref. -/
def Represents (table : RefTable) (refs : RefMap Int) : Prop :=
  ∀ repo name, oidAt table repo name = (refs repo name).map ObjectId.bytes

/-- Every stored oid has twenty bytes. -/
def WellFormed (table : RefTable) : Prop := ∀ r ∈ table.rows, r.oid.length = 20

def refMap (table : RefTable) : RefMap Int :=
  fun repo name => (oidAt table repo name).bind ObjectId.tryFrom

theorem represents_refMap (h : WellFormed table) : Represents table (refMap table) := by
  intro repo name
  rw [refMap]
  cases hrow : table.lookup (repo, name) with
  | none => simp [oidAt, hrow]
  | some r =>
    have hlen := h r (Table.lookup_eq_some.mp hrow).1
    simp [oidAt, hrow, ObjectId.tryFrom, hlen]

theorem refMap_eq (h : Represents table refs) : refMap table = refs := by
  funext repo name
  rw [refMap, h]
  cases refs repo name <;> simp

theorem represents_set {table table' : RefTable} (h : Represents table refs) {v : Option ObjectId}
    (hset : ∀ r n, oidAt table' r n = if r = repo ∧ n = name then v.map ObjectId.bytes
      else oidAt table r n) : Represents table' (refs.set repo name v) := by
  intro r n
  rw [hset]
  by_cases hsame : r = repo ∧ n = name
  · obtain ⟨rfl, rfl⟩ := hsame
    simp
  · rw [if_neg hsame, RefMap.set_ne _ _ hsame, h r n]

theorem bytes_map_eq_some {v : Option ObjectId} :
    v.map ObjectId.bytes = some oid.bytes ↔ v = some oid := by
  cases v with
  | none => simp
  | some a => simp [ObjectId.ext_bytes_iff]

theorem oidAt_eq_old (h : Represents table refs) (hold : u.oldOid ≠ .null) :
    oidAt table repo u.refname = some u.oldOid.bytes ↔ refs.Expects repo u := by
  rw [h, bytes_map_eq_some, RefMap.Expects, RefUpdate.value_of_ne hold]

theorem updateRef_of_expects (h : Represents table refs)
    (hnull : u.oldOid = .null → u.newOid ≠ .null) (hexp : refs.Expects repo u) :
    ∃ table', updateRef repo table u = .ok table' ∧ Represents table' (refs.apply repo u) := by
  by_cases hold : u.oldOid = .null
  · have hnew := hnull hold
    cases hins : table.insert ⟨repo, u.refname, u.newOid.bytes⟩ with
    | none =>
      have hfree : oidAt table repo u.refname = none := by
        rw [h, hexp, hold, RefUpdate.value_null, Option.map_none]
      rw [oidAt, Option.map_eq_none_iff] at hfree
      exact absurd hfree (Table.insert_eq_none.mp hins)
    | some table' =>
      refine ⟨table', by simp [updateRef, hnew, hold, hins], represents_set h fun r n => ?_⟩
      rw [oidAt_insert hins, RefUpdate.value_of_ne hnew, Option.map_some]
  · have hmatch := (oidAt_eq_old h hold).mpr hexp
    have haff : ¬ table.affected (rowIs repo u.refname u.oldOid) = 0 := by
      rw [affected_rowIs]
      exact not_not_intro hmatch
    by_cases hnew : u.newOid = .null
    · refine ⟨_, by rw [updateRef, if_pos (by simp [hnew]), if_neg haff], represents_set h fun r n => ?_⟩
      rw [oidAt_deleteWhere hmatch, hnew, RefUpdate.value_null, Option.map_none]
    · refine ⟨_, by rw [updateRef, if_neg (by simp [hnew]), if_neg (by simp [hold]), if_neg haff],
        represents_set h fun r n => ?_⟩
      rw [oidAt_updateWhere _ hmatch, RefUpdate.value_of_ne hnew, Option.map_some]

theorem updateRef_of_not_expects (h : Represents table refs)
    (hnull : u.oldOid = .null → u.newOid ≠ .null) (hexp : ¬ refs.Expects repo u) :
    ∃ e, updateRef repo table u = .error e := by
  by_cases hold : u.oldOid = .null
  · have hnew := hnull hold
    have htaken : table.insert ⟨repo, u.refname, u.newOid.bytes⟩ = none := by
      rw [Table.insert_eq_none]
      intro hfree
      have hrow : oidAt table repo u.refname = none := by rw [oidAt, hfree, Option.map_none]
      rw [h, Option.map_eq_none_iff] at hrow
      exact hexp (by rw [RefMap.Expects, hrow, hold, RefUpdate.value_null])
    exact ⟨.alreadyExists u.refname, by simp [updateRef, hnew, hold, htaken]⟩
  · have haff : table.affected (rowIs repo u.refname u.oldOid) = 0 :=
      affected_rowIs.mpr fun hmatch => hexp ((oidAt_eq_old h hold).mp hmatch)
    refine ⟨.stale u.refname u.oldOid, ?_⟩
    by_cases hnew : u.newOid = .null
    · rw [updateRef, if_pos (by simp [hnew]), if_pos haff]
    · rw [updateRef, if_neg (by simp [hnew]), if_neg (by simp [hold]), if_pos haff]

theorem updateRef_both_null (h : Represents table refs) (repo : Int) (hold : u.oldOid = .null)
    (hnew : u.newOid = .null) : (refs repo u.refname = some .null →
      ∃ table', updateRef repo table u = .ok table' ∧ Represents table' (refs.apply repo u)) ∧
    (refs repo u.refname ≠ some .null → ∃ e, updateRef repo table u = .error e) := by
  have hstored : refs repo u.refname = some .null ↔ oidAt table repo u.refname = some (ObjectId.bytes .null) := by
    rw [h, bytes_map_eq_some]
  rw [updateRef, if_pos (by simp [hnew]), hold]
  constructor
  · intro hat
    have haff : ¬ table.affected (rowIs repo u.refname .null) = 0 := by
      rw [affected_rowIs]
      exact not_not_intro (hstored.mp hat)
    refine ⟨_, if_neg haff, represents_set h fun r n => ?_⟩
    rw [oidAt_deleteWhere (hstored.mp hat), hnew, RefUpdate.value_null, Option.map_none]
  · intro hat
    exact ⟨_, if_pos (affected_rowIs.mpr fun hmatch => hat (hstored.mpr hmatch))⟩

theorem updateRef_ok {table table' : RefTable} (h : Represents table refs) (hnonnull : refs.NonNull)
    (hrun : updateRef repo table u = .ok table') :
    refs.Expects repo u ∧ Represents table' (refs.apply repo u) := by
  by_cases hnull : u.oldOid = .null → u.newOid ≠ .null
  · by_cases hexp : refs.Expects repo u
    · obtain ⟨table₁, hrun₁, hrep⟩ := updateRef_of_expects h hnull hexp
      rw [hrun₁, Except.ok.injEq] at hrun
      exact ⟨hexp, hrun ▸ hrep⟩
    · obtain ⟨e, he⟩ := updateRef_of_not_expects h hnull hexp
      simp [he] at hrun
  · push Not at hnull
    obtain ⟨e, he⟩ := (updateRef_both_null h repo hnull.1 hnull.2).2 (hnonnull repo u.refname)
    simp [he] at hrun

/-! ### The batch -/

theorem updateRefsOwned_singleton (db : Db) (repo : Int) (u : RefUpdate) :
    updateRefsOwned db repo [u] =
      match updateRef repo db.refs u with
      | .ok refs => ({ db with refs }, .ok ())
      | .error e => (db, .error e) := by
  rw [updateRefsOwned, if_neg (by simp)]
  cases h : updateRef repo db.refs u <;> simp [h, bind, Except.bind, pure, Except.pure]

variable {us : List RefUpdate} {db : Db}

theorem foldlM_updateRef (h : Represents table refs) (repo : Int)
    (hnames : (us.map (·.refname)).Nodup) (hnull : ∀ u ∈ us, u.oldOid = .null → u.newOid ≠ .null) :
    ((∀ u ∈ us, refs.Expects repo u) → ∃ table', us.foldlM (updateRef repo) table = .ok table' ∧
      Represents table' (refs.applyAll repo us)) ∧
    (¬ (∀ u ∈ us, refs.Expects repo u) → ∃ e, us.foldlM (updateRef repo) table = .error e) := by
  induction us generalizing table refs with
  | nil => exact ⟨fun _ => ⟨table, rfl, h⟩, fun hno => absurd (fun u hu => absurd hu List.not_mem_nil) hno⟩
  | cons u us ih =>
    rw [List.map_cons, List.nodup_cons] at hnames
    have hnullu := hnull u List.mem_cons_self
    have hnullus : ∀ v ∈ us, v.oldOid = .null → v.newOid ≠ .null :=
      fun v hv => hnull v (List.mem_cons_of_mem _ hv)
    simp only [List.foldlM_cons, List.forall_mem_cons]
    by_cases hexp : refs.Expects repo u
    · obtain ⟨table', hone, hrep⟩ := updateRef_of_expects h hnullu hexp
      have hlater : ∀ v ∈ us, (refs.apply repo u).Expects repo v ↔ refs.Expects repo v :=
        fun v hv => RefMap.expects_apply_of_ne fun heq => hnames.1 (heq ▸ List.mem_map_of_mem hv)
      obtain ⟨hyes, hno⟩ := ih hrep hnames.2 hnullus
      rw [hone]
      constructor
      · rintro ⟨-, hall⟩
        exact hyes fun v hv => (hlater v hv).mpr (hall v hv)
      · intro hnot
        exact hno fun hall => hnot ⟨hexp, fun v hv => (hlater v hv).mp (hall v hv)⟩
    · obtain ⟨e, hone⟩ := updateRef_of_not_expects h hnullu hexp
      rw [hone]
      exact ⟨fun hall => absurd hall.1 hexp, fun _ => ⟨e, rfl⟩⟩

/-- **The SQL ref transaction is the compare-and-swap** of the map its table represents, for every
batch that names each ref once and has no command with two null oids. -/
theorem updateRefsOwned_implements (h : Represents db.refs refs) (repo : Int)
    (hnames : (us.map (·.refname)).Nodup) (hnull : ∀ u ∈ us, u.oldOid = .null → u.newOid ≠ .null) :
    RefMap.Implements (fun db refs => Represents db.refs refs) refs repo us db
      (updateRefsOwned db repo us) := by
  obtain ⟨hyes, hno⟩ := foldlM_updateRef h repo hnames hnull
  refine RefMap.Implements.of_expects (fun hall => ?_) (fun hall => ?_)
  · obtain ⟨table', hfold, hrep⟩ := hyes hall
    cases us with
    | nil => exact ⟨rfl, h⟩
    | cons u us =>
      rw [updateRefsOwned, if_neg (by simp), hfold]
      exact ⟨rfl, hrep⟩
  · obtain ⟨e, hfold⟩ := hno hall
    have hne : us.isEmpty = false := by
      rw [List.isEmpty_eq_false_iff]
      rintro rfl
      exact hall fun u hu => absurd hu List.not_mem_nil
    rw [updateRefsOwned, if_neg (by simp [hne]), hfold]
    exact ⟨⟨e, rfl⟩, rfl⟩

theorem foldlM_follows {table table' : RefTable} (refs₀ : RefMap Int) (h : Represents table refs)
    (hnonnull : refs.NonNull) (hrun : us.foldlM (updateRef repo) table = .ok table') :
    RefMap.Follows repo refs₀ refs us ∧ Represents table' (refs.applyAll repo us) := by
  induction us generalizing table refs with
  | nil =>
    obtain rfl := Except.ok.inj hrun
    exact ⟨trivial, h⟩
  | cons u us ih =>
    rw [List.foldlM_cons] at hrun
    cases hone : updateRef repo table u with
    | error e => simp [hone, bind, Except.bind] at hrun
    | ok table₁ =>
      obtain ⟨hexp, hrep⟩ := updateRef_ok h hnonnull hone
      have hnonnull₁ : (refs.apply repo u).NonNull := hnonnull.applyAll repo [u]
      obtain ⟨hfollows, hfinal⟩ := ih hrep hnonnull₁ (by simpa [hone, bind, Except.bind] using hrun)
      exact ⟨⟨Or.inr hexp, hfollows⟩, hfinal⟩

theorem updateRefsOwned_follows (h : Represents db.refs refs) (hnonnull : refs.NonNull) (repo : Int)
    (us : List RefUpdate) : (updateRefsOwned db repo us).1 = db ∨
      RefMap.Follows repo refs refs us ∧
        ∃ table, (updateRefsOwned db repo us).1 = { db with refs := table } ∧
          Represents table (refs.applyAll repo us) := by
  rw [updateRefsOwned]
  split
  · exact Or.inl rfl
  · cases hfold : us.foldlM (updateRef repo) db.refs with
    | error e => exact Or.inl rfl
    | ok table =>
      obtain ⟨hfollows, hrep⟩ := foldlM_follows refs h hnonnull hfold
      exact Or.inr ⟨hfollows, table, rfl, hrep⟩

/-! ### Which batches go through -/

/-- What a statement asks of the map: the expected value, or the null oid if both oids are null. -/
def Accepts (repo : Int) (refs : RefMap Int) (u : RefUpdate) : Prop :=
  if u.oldOid = .null ∧ u.newOid = .null then refs repo u.refname = some .null else refs.Expects repo u

theorem updateRef_iff (h : Represents table refs) (repo : Int) (u : RefUpdate) :
    (Accepts repo refs u → ∃ table', updateRef repo table u = .ok table' ∧
      Represents table' (refs.apply repo u)) ∧
      (¬ Accepts repo refs u → ∃ e, updateRef repo table u = .error e) := by
  rw [Accepts]
  split
  · rename_i hnull
    exact updateRef_both_null h repo hnull.1 hnull.2
  · rename_i hnull
    have hnew : u.oldOid = .null → u.newOid ≠ .null := fun hold hnew => hnull ⟨hold, hnew⟩
    exact ⟨updateRef_of_expects h hnew, updateRef_of_not_expects h hnew⟩

theorem foldlM_updateRef_iff (h : Represents table refs) (repo : Int) (us : List RefUpdate) :
    (refs.InTurn (Accepts repo) repo us → ∃ table', us.foldlM (updateRef repo) table = .ok table' ∧
      Represents table' (refs.applyAll repo us)) ∧
    (¬ refs.InTurn (Accepts repo) repo us → ∃ e, us.foldlM (updateRef repo) table = .error e) := by
  induction us generalizing table refs with
  | nil => exact ⟨fun _ => ⟨table, rfl, h⟩, fun hno => absurd trivial hno⟩
  | cons u us ih =>
    obtain ⟨hyes, hno⟩ := updateRef_iff h repo u
    rw [List.foldlM_cons, RefMap.InTurn]
    by_cases haccepts : Accepts repo refs u
    · obtain ⟨table', hone, hrep⟩ := hyes haccepts
      rw [hone, and_iff_right haccepts]
      exact ih hrep
    · obtain ⟨e, hone⟩ := hno haccepts
      rw [hone]
      exact ⟨fun hall => absurd hall.1 haccepts, fun _ => ⟨e, rfl⟩⟩

/-- **Which batches the SQL ref transaction carries out**, whatever refs they name how often. -/
theorem updateRefsOwned_iff (h : Represents db.refs refs) (repo : Int) (us : List RefUpdate) :
    ((updateRefsOwned db repo us).2 = .ok () ↔ refs.InTurn (Accepts repo) repo us) ∧
      (refs.InTurn (Accepts repo) repo us →
        Represents (updateRefsOwned db repo us).1.refs (refs.applyAll repo us)) := by
  rw [updateRefsOwned]
  split
  · rename_i hempty
    rw [List.isEmpty_iff] at hempty
    subst hempty
    exact ⟨iff_of_true rfl trivial, fun _ => h⟩
  · obtain ⟨hyes, hno⟩ := foldlM_updateRef_iff h repo us
    by_cases hturn : refs.InTurn (Accepts repo) repo us
    · obtain ⟨table', hfold, hrep⟩ := hyes hturn
      rw [hfold]
      exact ⟨iff_of_true rfl hturn, fun _ => hrep⟩
    · obtain ⟨e, hfold⟩ := hno hturn
      rw [hfold]
      exact ⟨iff_of_false (by simp) hturn, fun hyes => absurd hyes hturn⟩

end Mizzle.Sql
