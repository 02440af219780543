import Mizzle.Backend.Kv.Refs

/-!
# Concurrent ref transactions of the KV backend

Any number of `update_refs` calls at once. Each of them is the program of its accesses in the lock
machine of `Mizzle.Lib.Lock`: `get_for_update` takes the lock and reads, the check and the buffered
write follow, and `finalize_write` commits or rolls back. By `Lock.run_serial` every schedule ends
in the store of the committed calls run one after the other (`runCalls`), each of them succeeding.

Serial order makes the compare-and-swap visible across calls: once a committed call has moved a ref
away from a value, a later committed call that expects this value needs a call in between that has
set it back (`exists_restores`).
-/

namespace Mizzle.Kv

open Lib

/-- The arguments of one `update_refs` call; a batch names every ref once. -/
structure UpdateCall where
  repoId : UInt64
  updates : List RefUpdate
  distinct : (updates.map (·.refname)).Nodup

def UpdateCall.program (call : UpdateCall) : List (Lock.Access Bytes Bytes String) :=
  call.updates.map (updateAccess call.repoId)

/-- The call has a command that sets the ref to `oid`. -/
def UpdateCall.Sets (call : UpdateCall) (repo : UInt64) (name : String) (oid : ObjectId) : Prop :=
  call.repoId = repo ∧ ∃ u ∈ call.updates, u.refname = name ∧ u.newOid = oid

variable {ι : Type}

/-- `update_refs` calls one after the other, each of which has to return `Ok`. -/
def runCalls (mode : Lock.LockRead) (call : ι → UpdateCall) (s : Store) : List ι → Option Store
  | [] => some s
  | i :: rest =>
    match updateRefs mode s (call i).repoId (call i).updates with
    | (s', .ok ()) => runCalls mode call s' rest
    | (_, .error _) => none

theorem runCalls_eq (mode : Lock.LockRead) (call : ι → UpdateCall) (s : Store) (log : List ι) :
    runCalls mode call s log = Lock.runSerial mode (fun i => (call i).program) s log := by
  induction log generalizing s with
  | nil => rfl
  | cons i log ih =>
    have hcall : Lock.runAtomic mode s (call i).program = updateRefs mode s (call i).repoId (call i).updates := rfl
    rw [runCalls, Lock.runSerial, hcall]
    rcases updateRefs mode s (call i).repoId (call i).updates with ⟨s', e | ok⟩
    · rfl
    · exact ih s'

variable {mode : Lock.LockRead} {s s' : Store} {call : ι → UpdateCall}

theorem runCalls_cons {i : ι} {log : List ι} (h : runCalls mode call s (i :: log) = some s') :
    ∃ mid, updateRefs mode s (call i).repoId (call i).updates = (mid, .ok ()) ∧
      runCalls mode call mid log = some s' := by
  rw [runCalls] at h
  split at h
  · rename_i mid hcall
    exact ⟨mid, hcall, h⟩
  · simp at h

theorem runCalls_append {log more : List ι} (h : runCalls mode call s (log ++ more) = some s') :
    ∃ mid, runCalls mode call s log = some mid ∧ runCalls mode call mid more = some s' := by
  rw [runCalls_eq, Lock.runSerial_append, Option.bind_eq_some_iff] at h
  simpa only [runCalls_eq] using h

/-- The stored value of the ref does not decode to what `oid` stands for. -/
def Differs (s : Store) (repo : UInt64) (name : String) (oid : ObjectId) : Prop :=
  decodeRef name s[refkey repo name]? ≠ .ok (RefUpdate.value oid)

theorem differs_of_update {call : UpdateCall}
    (h : updateRefs mode s call.repoId call.updates = (s', .ok ())) {u : RefUpdate}
    (hu : u ∈ call.updates) {oid : ObjectId} (hne : u.newOid ≠ oid) :
    Differs s' call.repoId u.refname oid := by
  obtain ⟨-, rfl⟩ := expected_of_ok call.distinct h
  rw [Differs, batchWrites_named s call.distinct hu, newValue_eq, decodeRef_map]
  intro heq
  exact hne (RefUpdate.value_injective (Except.ok.inj heq))

theorem differs_step {call : UpdateCall} {repo : UInt64} {name : String} {oid : ObjectId}
    (hdiff : Differs s repo name oid)
    (h : updateRefs mode s call.repoId call.updates = (s', .ok ()))
    (hsets : ¬ call.Sets repo name oid) : Differs s' repo name oid := by
  by_cases hnamed : call.repoId = repo ∧ ∃ u ∈ call.updates, u.refname = name
  · obtain ⟨rfl, u, hu, rfl⟩ := hnamed
    exact differs_of_update h hu fun heq => hsets ⟨rfl, u, hu, rfl, heq⟩
  · obtain ⟨-, rfl⟩ := expected_of_ok call.distinct h
    have hother : repo = call.repoId → ∀ u ∈ call.updates, u.refname ≠ name :=
      fun hrepo u hu hname => hnamed ⟨hrepo.symm, u, hu, hname⟩
    rw [Differs, batchWrites_other s hother]
    exact hdiff

theorem exists_sets {log : List ι} {repo : UInt64} {name : String} {oid : ObjectId}
    (hrun : runCalls mode call s log = some s') (hdiff : Differs s repo name oid)
    (hheld : ¬ Differs s' repo name oid) : ∃ k ∈ log, (call k).Sets repo name oid := by
  induction log generalizing s with
  | nil =>
    obtain rfl := Option.some.inj hrun
    exact absurd hdiff hheld
  | cons i log ih =>
    obtain ⟨mid, hcall, hrest⟩ := runCalls_cons hrun
    by_cases hsets : (call i).Sets repo name oid
    · exact ⟨i, List.mem_cons_self, hsets⟩
    · obtain ⟨k, hk, hkset⟩ := ih hrest (differs_step hdiff hcall hsets)
      exact ⟨k, List.mem_cons_of_mem _ hk, hkset⟩

theorem exists_restores {before between after : List ι} {i j : ι}
    (hrun : runCalls mode call s (before ++ i :: (between ++ j :: after)) = some s')
    {u v : RefUpdate} (hu : u ∈ (call i).updates) (hv : v ∈ (call j).updates)
    (hrepo : (call i).repoId = (call j).repoId) (hname : u.refname = v.refname)
    (hold : u.oldOid = v.oldOid) (hmoves : u.newOid ≠ u.oldOid) :
    ∃ k ∈ between, (call k).Sets (call i).repoId u.refname u.oldOid := by
  obtain ⟨s₁, -, hfrom⟩ := runCalls_append hrun
  obtain ⟨s₂, hi, hfrom⟩ := runCalls_cons hfrom
  obtain ⟨s₃, hbetween, hfrom⟩ := runCalls_append hfrom
  obtain ⟨s₄, hj, -⟩ := runCalls_cons hfrom
  have hexp : Expected s₃ (call j).repoId v := (expected_of_ok (call j).distinct hj).1 v hv
  refine exists_sets hbetween (differs_of_update hi hu hmoves) (not_not_intro ?_)
  rw [hrepo, hname, hold]
  exact hexp

variable [DecidableEq ι]

/-- **No ref update is lost.** After any schedule of any number of concurrent calls, the store is
the one obtained by running the calls that returned `Ok` one after the other in commit order, each
of them succeeding. And of two calls that returned `Ok` although they expect the same value of the
same ref, the first moving it elsewhere, a third one that set the ref back was committed in
between. -/
theorem concurrent_updateRefs_serial (mode : Lock.LockRead) (s₀ : Store) (call : ι → UpdateCall)
    (sched : List (ι × Lock.Action String)) {s : Lock.State Store Bytes Bytes String ι}
    (hrun : Lock.run mode (Lock.State.init s₀ fun i => (call i).program) sched = some s) :
    runCalls mode call s₀ s.log = some s.store ∧ s.log.Nodup ∧
    (∀ i, i ∈ s.log ↔ (s.client i).phase = .returned (.ok ())) ∧
    ∀ before between after i j, s.log = before ++ i :: (between ++ j :: after) →
      ∀ u ∈ (call i).updates, ∀ v ∈ (call j).updates, (call i).repoId = (call j).repoId →
        u.refname = v.refname → u.oldOid = v.oldOid → u.newOid ≠ u.oldOid →
        ∃ k ∈ between, (call k).Sets (call i).repoId u.refname u.oldOid := by
  obtain ⟨hserial, hnodup, hlogged⟩ := Lock.run_serial hrun
  rw [← runCalls_eq] at hserial
  refine ⟨hserial, hnodup, hlogged, ?_⟩
  intro before between after i j hlog u hu v hv hrepo hname hold hmoves
  rw [hlog] at hserial
  exact exists_restores hserial hu hv hrepo hname hold hmoves

/-- Two pushes that both expect the branch at the same commit. -/
def racingCalls : Fin 2 → UpdateCall :=
  ![⟨1, [⟨.fill 1, .fill 2, "refs/heads/main"⟩], by decide⟩, ⟨1, [⟨.fill 1, .fill 3, "refs/heads/main"⟩], by decide⟩]

def racingStore : Store :=
  Std.ExtTreeMap.insert ∅ (refkey 1 "refs/heads/main") (ObjectId.fill 1).bytes

/-- The second one waits for the lock, sees the new value and rolls back. -/
theorem concurrent_updateRefs_race :
    ∃ s : Lock.State Store Bytes Bytes String (Fin 2),
      Lock.run .committed (Lock.State.init racingStore fun i => (racingCalls i).program)
        [(0, .lock), (0, .write), (0, .commit), (1, .lock), (1, .write), (1, .rollback)] = some s ∧
      s.log = [0] ∧ runCalls .committed racingCalls racingStore [0] = some s.store := by
  have hlog : (Lock.run .committed (Lock.State.init racingStore fun i => (racingCalls i).program)
      [(0, .lock), (0, .write), (0, .commit), (1, .lock), (1, .write), (1, .rollback)]).map (·.log)
      = some [0] := by decide +kernel
  obtain ⟨s, hrun, hs⟩ := Option.map_eq_some_iff.mp hlog
  obtain ⟨hserial, -⟩ := concurrent_updateRefs_serial .committed racingStore racingCalls _ hrun
  exact ⟨s, hrun, hs, hs ▸ hserial⟩

end Mizzle.Kv
