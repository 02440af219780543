import Mizzle.Backend.Gitoxide.Refs
import Mizzle.Backend.Kv.Graph
import Mizzle.Backend.Sql.Graph
import Mizzle.Proto.Receive

/-!
# Does the push kind tell the truth?

The kind of a command is computed before the ref transaction, from its two oids and the commit
graph; the authoriser decides on the kind. `TellsTruth` is what the kind says about the transaction:
a `Create` makes a ref that was not there, a `Delete` removes the ref from its old oid, the other
two move it from the old oid to the new one, and nothing but a `Delete` removes a ref.

Classification tests the old oid first, in every backend. A transaction that reads a command the
same way agrees with it (`tellsTruth_classify`). The three transactions below read every command
with a non-null oid that way, and differ on the command with two null oids, which the request parser
lets through: it is always classified `Create`, gitoxide and SQL take it for a deletion, and KV
accepts it for a ref that does not exist.
-/

namespace Mizzle

open Lib

/-- What a kind says about the refs before and after the transaction; `direct` is the value of a ref
that points at an object. -/
structure TellsTruth {V : Type} (direct : ObjectId → V) (kind : PushKind) (u : RefUpdate)
    (before after : String → Option V) : Prop where
  atRef : match kind with
    | .create => before u.refname = none ∧ after u.refname = some (direct u.newOid)
    | .delete => before u.refname = some (direct u.oldOid) ∧ after u.refname = none
    | .fastForward | .forcePush =>
        before u.refname = some (direct u.oldOid) ∧ after u.refname = some (direct u.newOid)
  removed : ∀ n, before n ≠ none → after n = none → kind = .delete

/-- The command's two oids are null. -/
def RefUpdate.BothNull (u : RefUpdate) : Prop := u.oldOid = .null ∧ u.newOid = .null

section Classify

variable {V : Type} {direct : ObjectId → V} {u : RefUpdate} {before after : String → Option V}

theorem tellsTruth_classify (hnull : ¬ u.BothNull) (isAncestor : Bool)
    (hbefore : before u.refname = (RefUpdate.value u.oldOid).map direct)
    (hafter : ∀ n, after n = if n = u.refname then (RefUpdate.value u.newOid).map direct
      else before n) :
    TellsTruth direct (.classify u.oldOid u.newOid isAncestor) u before after := by
  have hat : after u.refname = (RefUpdate.value u.newOid).map direct := by rw [hafter, if_pos rfl]
  have hother : ∀ n, before n ≠ none → after n = none → n = u.refname := by
    intro n hn hgone
    by_contra hne
    rw [hafter, if_neg hne] at hgone
    exact hn hgone
  by_cases hold : u.oldOid = .null
  · have hnew : u.newOid ≠ .null := fun hnew => hnull ⟨hold, hnew⟩
    rw [PushKind.classify_of_old_null hold]
    rw [hold, RefUpdate.value_null] at hbefore
    refine ⟨⟨hbefore, by rw [hat, RefUpdate.value_of_ne hnew, Option.map_some]⟩, fun n hn hgone => ?_⟩
    obtain rfl := hother n hn hgone
    exact absurd hbefore hn
  · rw [RefUpdate.value_of_ne hold, Option.map_some] at hbefore
    by_cases hnew : u.newOid = .null
    · rw [PushKind.classify_of_new_null hold hnew]
      rw [hnew, RefUpdate.value_null] at hat
      exact ⟨⟨hbefore, hat⟩, fun _ _ _ => rfl⟩
    · rw [RefUpdate.value_of_ne hnew, Option.map_some] at hat
      have hkept : ∀ n, before n ≠ none → after n = none →
          PushKind.classify u.oldOid u.newOid isAncestor = .delete := by
        intro n hn hgone
        obtain rfl := hother n hn hgone
        rw [hat] at hgone
        simp at hgone
      refine ⟨?_, hkept⟩
      rw [PushKind.classify_of_ne hold hnew]
      cases isAncestor <;> exact ⟨hbefore, hat⟩

theorem not_tellsTruth_of_bothNull (hnull : u.BothNull) (isAncestor : Bool)
    (hafter : after u.refname = none) :
    ¬ TellsTruth direct (.classify u.oldOid u.newOid isAncestor) u before after := by
  rw [PushKind.classify_of_old_null hnull.1]
  intro htruth
  rw [htruth.atRef.2] at hafter
  simp at hafter

end Classify

/-! ### The three backends -/

/-- On success, the kind computed for the command tells the truth about the ref store. -/
def Gitoxide.KindTellsTruth (validName : String → Bool)
    (traverse : ObjectId → List (Except String ObjectId)) (refs : Gitoxide.RefStore)
    (u : RefUpdate) : Prop :=
  (Gitoxide.updateRefsSync validName refs [u]).2 = .ok () →
    TellsTruth .object (Gitoxide.computePushKindSync traverse u) u refs
      (Gitoxide.updateRefsSync validName refs [u]).1

/-- The same for a database; the ancestor query may take any number of rows. -/
def Sql.KindTellsTruth (db : Sql.Db) (repoDbId : Int) (u : RefUpdate) : Prop :=
  (Sql.updateRefsOwned db repoDbId [u]).2 = .ok () →
    ∀ fuel kind, Sql.computePushKind fuel db repoDbId u.oldOid u.newOid = some kind →
      TellsTruth id kind u (Sql.refMap db.refs repoDbId)
        (Sql.refMap (Sql.updateRefsOwned db repoDbId [u]).1.refs repoDbId)

def Kv.KindTellsTruth (mode : Lock.LockRead) (s : Kv.Store) (repoId : UInt64) (u : RefUpdate) :
    Prop :=
  (Kv.updateRefs mode s repoId [u]).2 = .ok () →
    TellsTruth id (Kv.computePushKind s repoId u.oldOid u.newOid) u (Kv.refMap s repoId)
      (Kv.refMap (Kv.updateRefs mode s repoId [u]).1 repoId)

theorem Gitoxide.admits_changeOf {u : RefUpdate} (hnull : ¬ u.BothNull)
    (current : Option Gitoxide.Target) :
    (Gitoxide.changeOf u).expected.admits current = true ↔
      current = (RefUpdate.value u.oldOid).map .object := by
  by_cases hold : u.oldOid = .null
  · have hnew : u.newOid ≠ .null := fun hnew => hnull ⟨hold, hnew⟩
    simp [Gitoxide.changeOf, hold, hnew, Gitoxide.Change.expected, Gitoxide.PreviousValue.admits]
  · rw [RefUpdate.value_of_ne hold]
    by_cases hnew : u.newOid = .null <;>
      simp [Gitoxide.changeOf, hold, hnew, Gitoxide.Change.expected, Gitoxide.PreviousValue.admits]

theorem Gitoxide.result_changeOf (u : RefUpdate) :
    (Gitoxide.changeOf u).result = (RefUpdate.value u.newOid).map .object := by
  by_cases hnew : u.newOid = .null
  · simp [Gitoxide.changeOf, hnew, Gitoxide.Change.result]
  · rw [RefUpdate.value_of_ne hnew]
    by_cases hold : u.oldOid = .null <;> simp [Gitoxide.changeOf, hold, hnew, Gitoxide.Change.result]

theorem Gitoxide.kindTellsTruth_iff (validName : String → Bool)
    (traverse : ObjectId → List (Except String ObjectId)) (refs : Gitoxide.RefStore)
    (u : RefUpdate) :
    Gitoxide.KindTellsTruth validName traverse refs u ↔
      ¬ u.BothNull ∨ refs u.refname = none ∨ validName u.refname = false := by
  obtain ⟨hok, happly⟩ := Gitoxide.updateRefsSync_singleton validName refs u
  have hafter : ∀ n, Gitoxide.RefEdit.apply refs ⟨Gitoxide.changeOf u, u.refname⟩ n
      = if n = u.refname then (RefUpdate.value u.newOid).map .object else refs n := by
    intro n
    rw [Gitoxide.RefEdit.apply, Gitoxide.result_changeOf]
  by_cases hnull : u.BothNull
  · -- the deletion only asks that the ref exists
    have hexists : (Gitoxide.changeOf u).expected.admits (refs u.refname) = (refs u.refname).isSome := by
      simp [Gitoxide.changeOf, hnull.1, hnull.2, Gitoxide.Change.expected, Gitoxide.PreviousValue.admits]
    rw [hexists] at hok
    constructor
    · intro htruth
      by_contra hcond
      push Not at hcond
      obtain ⟨-, hsome, hvalid⟩ := hcond
      have hran := hok.mpr ⟨by simpa using hvalid, Option.isSome_iff_ne_none.mpr hsome⟩
      have hlie := htruth hran
      rw [happly hran] at hlie
      refine not_tellsTruth_of_bothNull hnull _ ?_ hlie
      rw [hafter, if_pos rfl, hnull.2, RefUpdate.value_null, Option.map_none]
    · rintro (hcond | hcond | hcond) hran
      · exact absurd hnull hcond
      · simp [hcond] at hok
        exact absurd hran hok
      · simp [hcond] at hok
        exact absurd hran hok
  · refine ⟨fun _ => Or.inl hnull, fun _ hran => ?_⟩
    rw [happly hran]
    exact tellsTruth_classify hnull _ ((Gitoxide.admits_changeOf hnull _).mp (hok.mp hran).2) hafter

theorem RefMap.tellsTruth_of_expects {ρ : Type} [DecidableEq ρ] {refs : RefMap ρ} {repo : ρ}
    {u : RefUpdate} (hnull : ¬ u.BothNull) (hexp : refs.Expects repo u) (isAncestor : Bool) :
    TellsTruth id (.classify u.oldOid u.newOid isAncestor) u (refs repo)
      (refs.apply repo u repo) := by
  refine tellsTruth_classify hnull isAncestor (by rw [Option.map_id]; exact hexp) fun n => ?_
  simp [RefMap.apply, RefMap.set]

theorem Sql.kindTellsTruth_iff {db : Sql.Db} (hwf : Sql.WellFormed db.refs) (repoDbId : Int)
    (u : RefUpdate) :
    Sql.KindTellsTruth db repoDbId u ↔ ¬ u.BothNull ∨
      Sql.refMap db.refs repoDbId u.refname ≠ some .null := by
  have hrep := Sql.represents_refMap hwf
  rw [Sql.KindTellsTruth, Sql.updateRefsOwned_singleton]
  by_cases hnull : u.BothNull
  · obtain ⟨hyes, hno⟩ := Sql.updateRef_both_null hrep repoDbId hnull.1 hnull.2
    constructor
    · intro htruth
      refine Or.inr fun hat => ?_
      obtain ⟨table', hrun, hrep'⟩ := hyes hat
      simp only [hrun, Sql.refMap_eq hrep'] at htruth
      have hkind : Sql.computePushKind 0 db repoDbId u.oldOid u.newOid
          = some (PushKind.classify u.oldOid u.newOid false) := if_pos (Or.inl (by simp [hnull.1]))
      refine not_tellsTruth_of_bothNull hnull _ ?_ (htruth trivial 0 _ hkind)
      rw [RefMap.apply, RefMap.set_self, hnull.2, RefUpdate.value_null]
    · rintro (hcond | hcond)
      · exact absurd hnull hcond
      · obtain ⟨e, hrun⟩ := hno hcond
        simp [hrun]
  · refine ⟨fun _ => Or.inl hnull, fun _ => ?_⟩
    have hnull' : u.oldOid = .null → u.newOid ≠ .null := fun hold hnew => hnull ⟨hold, hnew⟩
    by_cases hexp : (Sql.refMap db.refs).Expects repoDbId u
    · obtain ⟨table', hrun, hrep'⟩ := Sql.updateRef_of_expects hrep hnull' hexp
      simp only [hrun, Sql.refMap_eq hrep']
      rintro - fuel kind hkind
      obtain ⟨b, rfl⟩ := Sql.computePushKind_some hkind
      exact RefMap.tellsTruth_of_expects hnull hexp b
    · obtain ⟨e, hrun⟩ := Sql.updateRef_of_not_expects hrep hnull' hexp
      simp [hrun]

theorem Kv.kindTellsTruth_iff (mode : Lock.LockRead) {s : Kv.Store} (hwf : Kv.WellFormed s)
    (repoId : UInt64) (u : RefUpdate) :
    Kv.KindTellsTruth mode s repoId u ↔ ¬ u.BothNull ∨ Kv.refMap s repoId u.refname ≠ none := by
  have hname : ([u].map (·.refname)).Nodup := List.nodup_singleton u.refname
  have hrun := Kv.updateRefs_implements mode (Kv.represents_refMap hwf) repoId hname
  rw [Kv.KindTellsTruth]
  by_cases hexp : (Kv.refMap s).Expects repoId u
  · have hcas := hrun.accepted ((Kv.refMap s).apply repoId u)
      (RefMap.cas_of_expects fun v hv => List.mem_singleton.mp hv ▸ hexp)
    rw [Kv.refMap_eq hcas.2]
    by_cases hnull : u.BothNull
    · rw [RefMap.Expects, hnull.1, RefUpdate.value_null] at hexp
      constructor
      · intro htruth
        refine absurd (htruth hcas.1) (not_tellsTruth_of_bothNull hnull _ ?_)
        rw [RefMap.apply, RefMap.set_self, hnull.2, RefUpdate.value_null]
      · rintro (hcond | hcond)
        · exact absurd hnull hcond
        · exact absurd hexp hcond
    · exact ⟨fun _ => Or.inl hnull, fun _ _ => RefMap.tellsTruth_of_expects hnull hexp _⟩
  · obtain ⟨⟨e, he⟩, -⟩ := hrun.refused
      (RefMap.cas_of_not_expects fun hall => hexp (hall u List.mem_cons_self))
    rw [he]
    refine ⟨fun _ => ?_, fun _ hran => by simp at hran⟩
    by_cases hnull : u.BothNull
    · refine Or.inr fun habsent => hexp ?_
      rw [RefMap.Expects, habsent, hnull.1, RefUpdate.value_null]
    · exact Or.inl hnull

/-- **When the kind tells the truth**, for every backend, every stored state and every command.
Every command with a non-null oid is told truthfully. The command with two null oids is not:
gitoxide deletes whatever the ref holds, SQL deletes a ref that holds the null oid, and KV reports
success for a ref that is not there. -/
theorem pushKind_tellsTruth_iff (validName : String → Bool)
    (traverse : ObjectId → List (Except String ObjectId)) (refs : Gitoxide.RefStore) (db : Sql.Db)
    (hdb : Sql.WellFormed db.refs) (repoDbId : Int) (mode : Lock.LockRead) {s : Kv.Store}
    (hs : Kv.WellFormed s) (repoId : UInt64) (u : RefUpdate) :
    (Gitoxide.KindTellsTruth validName traverse refs u ↔
      ¬ u.BothNull ∨ refs u.refname = none ∨ validName u.refname = false) ∧
    (Sql.KindTellsTruth db repoDbId u ↔ ¬ u.BothNull ∨ Sql.refMap db.refs repoDbId u.refname ≠ some .null) ∧
    (Kv.KindTellsTruth mode s repoId u ↔ ¬ u.BothNull ∨ Kv.refMap s repoId u.refname ≠ none) :=
  ⟨Gitoxide.kindTellsTruth_iff validName traverse refs u, Sql.kindTellsTruth_iff hdb repoDbId u,
    Kv.kindTellsTruth_iff mode hs repoId u⟩

theorem pushKind_tellsTruth_move :
    Gitoxide.KindTellsTruth (fun _ => true) (fun _ => [])
      (fun n => if n = "refs/heads/main" then some (.object (.fill 1)) else none)
      ⟨.fill 1, .fill 2, "refs/heads/main"⟩ ∧
    Sql.KindTellsTruth ⟨.empty, ⟨[⟨1, "refs/heads/main", (ObjectId.fill 1).bytes⟩], by decide⟩, .empty⟩ 1
      ⟨.fill 1, .fill 2, "refs/heads/main"⟩ ∧
    Kv.KindTellsTruth .committed
      (Std.ExtTreeMap.insert ∅ (Kv.refkey 1 "refs/heads/main") (ObjectId.fill 1).bytes) 1
      ⟨.fill 1, .fill 2, "refs/heads/main"⟩ := by
  have hmove : ¬ RefUpdate.BothNull ⟨.fill 1, .fill 2, "refs/heads/main"⟩ := by
    rintro ⟨hold, -⟩
    exact absurd hold (by decide)
  have hs : Kv.WellFormed
      (Std.ExtTreeMap.insert ∅ (Kv.refkey 1 "refs/heads/main") (ObjectId.fill 1).bytes) := by
    intro repo name v hv
    rw [Std.ExtTreeMap.getElem?_insert] at hv
    split at hv
    · rw [← Option.some.inj hv, ObjectId.length_eq]
    · simp at hv
  obtain ⟨hgix, hsql, hkv⟩ := pushKind_tellsTruth_iff (fun _ => true) (fun _ => [])
    (fun n => if n = "refs/heads/main" then some (.object (.fill 1)) else none)
    ⟨.empty, ⟨[⟨1, "refs/heads/main", (ObjectId.fill 1).bytes⟩], by decide⟩, .empty⟩
    (by simp [Sql.WellFormed, ObjectId.length_eq]) 1 .committed hs 1 ⟨.fill 1, .fill 2, "refs/heads/main"⟩
  exact ⟨hgix.mpr (Or.inl hmove), hsql.mpr (Or.inl hmove), hkv.mpr (Or.inl hmove)⟩

/-- The request with two null oids is parsed, classified as the creation of a branch, and deletes
it. -/
theorem pushKind_create_deletes_branch :
    Receive.readReceiveRequest {} (utf8 "0065" ++ ObjectId.null.toHex ++ utf8 " "
        ++ ObjectId.null.toHex ++ utf8 " refs/heads/main" ++ utf8 "0000") =
          .ok ([⟨.null, .null, "refs/heads/main"⟩], []) ∧
    Gitoxide.computePushKindSync (fun _ => []) ⟨.null, .null, "refs/heads/main"⟩ = .create ∧
    (Gitoxide.updateRefsSync (fun _ => true)
      (fun n => if n = "refs/heads/main" then some (.object (.fill 1)) else none)
      [⟨.null, .null, "refs/heads/main"⟩]).2 = .ok () ∧
    (Gitoxide.updateRefsSync (fun _ => true)
      (fun n => if n = "refs/heads/main" then some (.object (.fill 1)) else none)
      [⟨.null, .null, "refs/heads/main"⟩]).1 "refs/heads/main" = none ∧
    ¬ Gitoxide.KindTellsTruth (fun _ => true) (fun _ => [])
      (fun n => if n = "refs/heads/main" then some (.object (.fill 1)) else none)
      ⟨.null, .null, "refs/heads/main"⟩ := by
  refine ⟨by decide +kernel, by decide, by decide, by decide, ?_⟩
  rw [Gitoxide.kindTellsTruth_iff]
  simp [RefUpdate.BothNull]

end Mizzle
