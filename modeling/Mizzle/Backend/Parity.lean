import Mizzle.Backend.Kv.Refs
import Mizzle.Backend.Sql.Refs

/-!
# The SQL and KV ref transactions are one compare-and-swap

SQL tests a command by the number of rows its statement affects and by the primary key; KV reads the
ref under a lock and branches. Both are `RefMap.cas` of the map they store
(`Sql.updateRefsOwned_implements`, `Kv.updateRefs_implements`), and `CasOutcome` says in the words
of the trait's documentation what that is.
-/

namespace Mizzle

open Lib

/-- The outcome of an all-or-nothing compare-and-swap of a batch on the refs of one repository. -/
structure CasOutcome {ρ : Type} (refs : RefMap ρ) (repo : ρ) (us : List RefUpdate) (ok : Prop)
    (refs' : RefMap ρ) : Prop where
  /-- It succeeds when every condition holds in the initial map. -/
  ok_iff : ok ↔ ∀ u ∈ us, (u.oldOid = .null → refs repo u.refname = none) ∧
    (u.oldOid ≠ .null → refs repo u.refname = some u.oldOid)
  /-- On success every command is applied. -/
  applied : ok → ∀ u ∈ us, (u.newOid = .null → refs' repo u.refname = none) ∧
    (u.newOid ≠ .null → refs' repo u.refname = some u.newOid)
  /-- No other ref changes, of this repository or of another one. -/
  unchanged : ∀ r n, (r = repo → ∀ u ∈ us, u.refname ≠ n) → refs' r n = refs r n
  /-- On failure nothing changes. -/
  failed : ¬ ok → refs' = refs

theorem RefUpdate.eq_value_iff {v : Option ObjectId} {oid : ObjectId} :
    v = RefUpdate.value oid ↔ (oid = .null → v = none) ∧ (oid ≠ .null → v = some oid) := by
  by_cases h : oid = .null
  · simp [h]
  · simp [RefUpdate.value_of_ne h, h]

theorem RefMap.casOutcome {ρ : Type} [DecidableEq ρ] (refs : RefMap ρ) (repo : ρ)
    {us : List RefUpdate} (hnames : (us.map (·.refname)).Nodup) {ok : Prop}
    (hok : ok ↔ ∀ u ∈ us, refs.Expects repo u) {refs' : RefMap ρ}
    (hyes : ok → refs' = refs.applyAll repo us) (hno : ¬ ok → refs' = refs) :
    CasOutcome refs repo us ok refs' where
  ok_iff := hok.trans (forall₂_congr fun _ _ => RefUpdate.eq_value_iff)
  applied h u hu := by
    rw [hyes h]
    exact RefUpdate.eq_value_iff.mp (RefMap.applyAll_of_mem repo refs hnames hu)
  unchanged r n hother := by
    by_cases h : ok
    · rw [hyes h]
      refine RefMap.applyAll_of_notMem repo refs us fun u hu hsame => ?_
      exact hother hsame.1 u hu hsame.2.symm
    · rw [hno h]
  failed := hno

theorem RefMap.Implements.casOutcome {ρ σ ε : Type} [DecidableEq ρ]
    {represents : σ → RefMap ρ → Prop} {s : σ} {refs : RefMap ρ} {repo : ρ} {us : List RefUpdate}
    {run : σ × Except ε Unit} (hrun : RefMap.Implements represents refs repo us s run)
    (h : represents s refs) (hnames : (us.map (·.refname)).Nodup) :
    ∃ refs', represents run.1 refs' ∧ CasOutcome refs repo us (run.2 = .ok ()) refs' ∧
      (run.2 ≠ .ok () → run.1 = s) := by
  by_cases hall : ∀ u ∈ us, refs.Expects repo u
  · have hcas := hrun.accepted _ (RefMap.cas_of_expects hall)
    exact ⟨_, hcas.2, RefMap.casOutcome refs repo hnames (iff_of_true hcas.1 hall) (fun _ => rfl)
      fun hno => absurd hcas.1 hno, fun hno => absurd hcas.1 hno⟩
  · obtain ⟨⟨e, he⟩, hsame⟩ := hrun.refused (RefMap.cas_of_not_expects hall)
    have hfail : ¬ run.2 = .ok () := by simp [he]
    exact ⟨refs, hsame ▸ h, RefMap.casOutcome refs repo hnames (iff_of_false hfail hall)
      (fun hok => absurd hok hfail) fun _ => rfl, fun _ => hsame⟩

theorem CasOutcome.agree {ρ ρ' : Type} {refs refs₁ : RefMap ρ} {repo : ρ}
    {kvRefs kvRefs₁ : RefMap ρ'} {repo' : ρ'} {us : List RefUpdate} {ok ok' : Prop}
    (h : CasOutcome refs repo us ok refs₁) (h' : CasOutcome kvRefs repo' us ok' kvRefs₁)
    (hsame : refs repo = kvRefs repo') : (ok ↔ ok') ∧ refs₁ repo = kvRefs₁ repo' := by
  have hok : ok ↔ ok' := by rw [h.ok_iff, h'.ok_iff, hsame]
  refine ⟨hok, funext fun n => ?_⟩
  by_cases hran : ok
  · by_cases hnamed : ∃ u ∈ us, u.refname = n
    · obtain ⟨u, hu, rfl⟩ := hnamed
      rw [RefUpdate.eq_value_iff.mpr (h.applied hran u hu),
        RefUpdate.eq_value_iff.mpr (h'.applied (hok.mp hran) u hu)]
    · push Not at hnamed
      rw [h.unchanged repo n fun _ => hnamed, h'.unchanged repo' n fun _ => hnamed, hsame]
  · rw [h.failed hran, h'.failed (fun hran' => hran (hok.mpr hran')), hsame]

/-- **The SQL and the KV transaction implement the same compare-and-swap.** On a batch that names
every ref once and has no command with two null oids, each of them has the outcome of a
compare-and-swap of the map it stores; starting from the same refs, they accept the same batches
and end with the same refs. A failed batch leaves the database and the store as they were. -/
theorem updateRefs_sql_kv_cas (db : Sql.Db) {refs : RefMap Int} (hsql : Sql.Represents db.refs refs)
    {s : Kv.Store} {kvRefs : RefMap UInt64} (hkv : Kv.Represents s kvRefs) (mode : Lock.LockRead)
    (repoDbId : Int) (repoId : UInt64) (us : List RefUpdate) (hnames : (us.map (·.refname)).Nodup)
    (hnull : ∀ u ∈ us, ¬ (u.oldOid = .null ∧ u.newOid = .null)) :
    ∃ refs' kvRefs', Sql.Represents (Sql.updateRefsOwned db repoDbId us).1.refs refs' ∧
      Kv.Represents (Kv.updateRefs mode s repoId us).1 kvRefs' ∧
      CasOutcome refs repoDbId us ((Sql.updateRefsOwned db repoDbId us).2 = .ok ()) refs' ∧
      CasOutcome kvRefs repoId us ((Kv.updateRefs mode s repoId us).2 = .ok ()) kvRefs' ∧
      ((Sql.updateRefsOwned db repoDbId us).2 ≠ .ok () → (Sql.updateRefsOwned db repoDbId us).1 = db) ∧
      ((Kv.updateRefs mode s repoId us).2 ≠ .ok () → (Kv.updateRefs mode s repoId us).1 = s) ∧
      (refs repoDbId = kvRefs repoId →
        ((Sql.updateRefsOwned db repoDbId us).2 = .ok () ↔ (Kv.updateRefs mode s repoId us).2 = .ok ()) ∧
        refs' repoDbId = kvRefs' repoId) := by
  have hnull' : ∀ u ∈ us, u.oldOid = .null → u.newOid ≠ .null := fun u hu hold hnew => hnull u hu ⟨hold, hnew⟩
  obtain ⟨refs', hrep, hout, hsame⟩ :=
    (Sql.updateRefsOwned_implements hsql repoDbId hnames hnull').casOutcome hsql hnames
  obtain ⟨kvRefs', hkvRep, hkvOut, hkvSame⟩ :=
    (Kv.updateRefs_implements mode hkv repoId hnames).casOutcome hkv hnames
  exact ⟨refs', kvRefs', hrep, hkvRep, hout, hkvOut, hsame, hkvSame, fun heq => hout.agree hkvOut heq⟩

/-- A batch that moves one branch, creates one and deletes one is accepted by both. -/
theorem updateRefs_sql_kv_cas_three :
    (Sql.updateRefsOwned ⟨.empty, ⟨[⟨1, "refs/heads/main", (ObjectId.fill 1).bytes⟩,
        ⟨1, "refs/heads/old", (ObjectId.fill 2).bytes⟩], by decide⟩, .empty⟩ 1
      [⟨.fill 1, .fill 3, "refs/heads/main"⟩, ⟨.null, .fill 4, "refs/heads/new"⟩,
        ⟨.fill 2, .null, "refs/heads/old"⟩]).2 = .ok () ∧
    (Kv.updateRefs .buffered ((Std.ExtTreeMap.insert ∅ (Kv.refkey 7 "refs/heads/main") (ObjectId.fill 1).bytes).insert
        (Kv.refkey 7 "refs/heads/old") (ObjectId.fill 2).bytes) 7
      [⟨.fill 1, .fill 3, "refs/heads/main"⟩, ⟨.null, .fill 4, "refs/heads/new"⟩,
        ⟨.fill 2, .null, "refs/heads/old"⟩]).2 = .ok () := by
  have hdb : Sql.WellFormed ⟨[⟨1, "refs/heads/main", (ObjectId.fill 1).bytes⟩,
      ⟨1, "refs/heads/old", (ObjectId.fill 2).bytes⟩], by decide⟩ := by
    simp [Sql.WellFormed, ObjectId.length_eq]
  have hstore : Kv.Represents ((Std.ExtTreeMap.insert ∅ (Kv.refkey 7 "refs/heads/main") (ObjectId.fill 1).bytes).insert
      (Kv.refkey 7 "refs/heads/old") (ObjectId.fill 2).bytes)
      (RefMap.set (RefMap.set (fun _ _ => none) 7 "refs/heads/main" (some (.fill 1))) 7 "refs/heads/old"
        (some (.fill 2))) :=
    Kv.represents_set (Kv.represents_set (s := ∅) (fun _ _ => by simp) _ _ (some (.fill 1))) _ _ (some (.fill 2))
  obtain ⟨refs', kvRefs', -, -, hsql, hkv, -⟩ := updateRefs_sql_kv_cas
    ⟨.empty, ⟨[⟨1, "refs/heads/main", (ObjectId.fill 1).bytes⟩,
      ⟨1, "refs/heads/old", (ObjectId.fill 2).bytes⟩], by decide⟩, .empty⟩
    (Sql.represents_refMap hdb) hstore .buffered 1 7
    [⟨.fill 1, .fill 3, "refs/heads/main"⟩, ⟨.null, .fill 4, "refs/heads/new"⟩,
      ⟨.fill 2, .null, "refs/heads/old"⟩] (by decide) (by decide)
  exact ⟨hsql.ok_iff.mpr (by decide), hkv.ok_iff.mpr (by decide)⟩

end Mizzle
