import Mizzle.Backend.Kv.Keys
import Mizzle.Backend.RefMap
import Mizzle.Lib.Lock

/-!
# Ref transactions of the KV backend

`mizzle/src/backend/kv/refs.rs`, `update_refs`: one pessimistic transaction in which every command
locks and reads its ref (`get_for_update`), checks the value read against `old_oid`, and buffers a
put or a delete; `finalize_write` (`kv/txn.rs`) then commits or rolls back. The body of the loop is
the access `updateAccess`, and the transaction is `Lock.runAtomic` of the accesses of the batch.

The client library is not part of the repository. Whether `get_for_update` answers a key that the
same transaction has already written with the committed or with the buffered value is left open
(`Lock.LockRead`): everything below holds in both modes.

The main result is `updateRefs_implements`: on a store that represents a ref map, a batch that names
every ref once is the compare-and-swap `RefMap.cas`.
-/

namespace Mizzle.Kv

open Lib

/-- The committed key space, ordered by bytes. -/
abbrev Store := Std.ExtTreeMap Bytes Bytes compare

instance : Lock.KeyStore Store Bytes Bytes where
  get s k := s[k]?
  set s k v := match v with
    | some x => s.insert k x
    | none => s.erase k
  get_set_self s k v := by cases v <;> simp
  get_set_ne s k v k' h := by
    have hcmp : compare k k' ≠ .eq := fun heq => h (Std.LawfulEqOrd.eq_of_compare heq).symm
    cases v with
    | none => simp [Std.ExtTreeMap.getElem?_erase, hcmp]
    | some x => simp [Std.ExtTreeMap.getElem?_insert, hcmp]

@[simp] theorem get_eq (s : Store) (k : Bytes) : Lock.KeyStore.get s k = s[k]? := rfl

/-! ### The loop body -/

variable {s : Store} {refs : RefMap UInt64} {us : List RefUpdate} {repo : UInt64}

/-- The value read under the lock as an oid. -/
def decodeRef (refname : String) : Option Bytes → Except String (Option ObjectId)
  | none => .ok none
  | some v =>
    match ObjectId.tryFrom v with
    | some oid => .ok (some oid)
    | none => .error s!"corrupt ref value for {refname}"

/-- The check of one command against the current value of its ref. -/
def checkCurrent (u : RefUpdate) (current : Option ObjectId) : Except String Unit :=
  let create := u.oldOid == ObjectId.null
  match create, current with
  | true, some actual =>
    .error ("stale info: " ++ u.refname ++ " should not exist but is at " ++ actual.toHexString)
  | false, none =>
    .error ("stale info: " ++ u.refname ++ " expected " ++ u.oldOid.toHexString ++ " but is absent")
  | false, some actual =>
    if actual ≠ u.oldOid then
      .error ("stale info: " ++ u.refname ++ " expected " ++ u.oldOid.toHexString ++ " but is "
        ++ actual.toHexString)
    else .ok ()
  | true, none => .ok ()

/-- What the command writes under its key: `None` is `delete`. -/
def newValue (u : RefUpdate) : Option Bytes :=
  if u.newOid == ObjectId.null then none else some u.newOid.bytes

/-- One round of the loop: lock and read the ref, check, put or delete. -/
def updateAccess (repoId : UInt64) (u : RefUpdate) : Lock.Access Bytes Bytes String where
  key := refkey repoId u.refname
  act raw := do
    let current ← decodeRef u.refname raw
    checkCurrent u current
    return newValue u

variable {u : RefUpdate} {writes : List (Bytes × Option Bytes)}

/-- `update_refs`: the store afterwards and the result. -/
def updateRefs (mode : Lock.LockRead) (s : Store) (repoId : UInt64) (updates : List RefUpdate) :
    Store × Except String Unit :=
  Lock.runAtomic mode s (updates.map (updateAccess repoId))

/-! ### What the loop body accepts -/

theorem checkCurrent_ok {current : Option ObjectId} :
    checkCurrent u current = .ok () ↔ current = RefUpdate.value u.oldOid := by
  by_cases hnull : u.oldOid = ObjectId.null
  · cases current with
    | none => simp [checkCurrent, hnull]
    | some actual => simp [checkCurrent, hnull]
  · have hbeq : (u.oldOid == ObjectId.null) = false := by simpa using hnull
    rw [RefUpdate.value_of_ne hnull]
    cases current with
    | none => simp [checkCurrent, hbeq]
    | some actual =>
      by_cases hactual : actual = u.oldOid
      · simp [checkCurrent, hbeq, hactual]
      · simp [checkCurrent, hbeq, hactual]

theorem newValue_eq (u : RefUpdate) :
    newValue u = (RefUpdate.value u.newOid).map ObjectId.bytes := by
  by_cases hnull : u.newOid = ObjectId.null
  · simp [newValue, hnull]
  · simp [newValue, hnull, RefUpdate.value_of_ne hnull]

theorem decodeRef_map (refname : String) (v : Option ObjectId) :
    decodeRef refname (v.map ObjectId.bytes) = .ok v := by
  cases v with
  | none => rfl
  | some oid => simp [decodeRef]

theorem updateAccess_act {repoId : UInt64} {raw w : Option Bytes} :
    (updateAccess repoId u).act raw = .ok w ↔
      decodeRef u.refname raw = .ok (RefUpdate.value u.oldOid) ∧ w = newValue u := by
  simp only [updateAccess]
  cases hdecode : decodeRef u.refname raw with
  | error e => simp [bind, Except.bind]
  | ok current =>
    cases hcheck : checkCurrent u current with
    | error e =>
      have hne : current ≠ RefUpdate.value u.oldOid := fun heq => by
        rw [checkCurrent_ok.mpr heq] at hcheck
        simp at hcheck
      simp [bind, Except.bind, hcheck, hne]
    | ok x =>
      have heq := checkCurrent_ok.mp hcheck
      simp [bind, Except.bind, pure, Except.pure, hcheck, ← heq, eq_comm]

/-! ### The batch -/

/-- The stored value of the command's ref decodes to what the command expects. -/
def Expected (s : Store) (repo : UInt64) (u : RefUpdate) : Prop :=
  decodeRef u.refname s[refkey repo u.refname]? = .ok (RefUpdate.value u.oldOid)

def batchWrites (repo : UInt64) (us : List RefUpdate) : List (Bytes × Option Bytes) :=
  us.map fun u => (refkey repo u.refname, newValue u)

theorem runBody_updates (mode : Lock.LockRead) (s : Store) (repo : UInt64) (us : List RefUpdate)
    (writes : List (Bytes × Option Bytes)) (hnames : (us.map (·.refname)).Nodup)
    (hfresh : ∀ u ∈ us, ∀ w ∈ writes, w.1 ≠ refkey repo u.refname) :
    (∀ ws, Lock.runBody mode s (us.map (updateAccess repo)) writes = .ok ws →
      (∀ u ∈ us, Expected s repo u) ∧ ws = writes ++ batchWrites repo us) ∧
    ((∀ u ∈ us, Expected s repo u) →
      Lock.runBody mode s (us.map (updateAccess repo)) writes = .ok (writes ++ batchWrites repo us)) := by
  induction us generalizing writes with
  | nil => simp [Lock.runBody, batchWrites]
  | cons u us ih =>
    rw [List.map_cons, List.nodup_cons] at hnames
    have hread : Lock.lockRead mode s writes (updateAccess repo u).key = s[refkey repo u.refname]? :=
      Lock.lockRead_of_notMem mode s writes _ (hfresh u List.mem_cons_self)
    have hfresh' : ∀ v ∈ us, ∀ w ∈ writes ++ [((updateAccess repo u).key, newValue u)],
        w.1 ≠ refkey repo v.refname := by
      intro v hv w hw
      rcases List.mem_append.mp hw with hw | hw
      · exact hfresh v (List.mem_cons_of_mem _ hv) w hw
      · rw [List.mem_singleton] at hw
        subst hw
        intro heq
        have hsame : u.refname = v.refname := (refkey_inj.mp heq).2
        exact hnames.1 (hsame ▸ List.mem_map_of_mem hv)
    have ih' := ih (writes ++ [((updateAccess repo u).key, newValue u)]) hnames.2 hfresh'
    have hcons : writes ++ batchWrites repo (u :: us)
        = writes ++ [((updateAccess repo u).key, newValue u)] ++ batchWrites repo us := by
      rw [List.append_assoc]
      rfl
    simp only [List.map_cons, Lock.runBody, hread, hcons]
    constructor
    · intro ws hrun
      split at hrun
      · simp at hrun
      · rename_i w hw
        obtain ⟨hexp, rfl⟩ := updateAccess_act.mp hw
        obtain ⟨hrest, hws⟩ := ih'.1 ws hrun
        exact ⟨List.forall_mem_cons.mpr ⟨hexp, hrest⟩, hws⟩
    · intro hall
      rw [updateAccess_act.mpr ⟨hall u List.mem_cons_self, rfl⟩]
      exact ih'.2 fun v hv => hall v (List.mem_cons_of_mem _ hv)

theorem updateRefs_of_expected (mode : Lock.LockRead) (hnames : (us.map (·.refname)).Nodup)
    (hall : ∀ u ∈ us, Expected s repo u) :
    updateRefs mode s repo us = (Lock.applyWrites s (batchWrites repo us), .ok ()) := by
  have hrun := (runBody_updates mode s repo us [] hnames (fun _ _ w hw => absurd hw List.not_mem_nil)).2 hall
  exact Lock.runAtomic_of_body hrun

theorem updateRefs_of_not_expected (mode : Lock.LockRead) (hnames : (us.map (·.refname)).Nodup)
    (hall : ¬ ∀ u ∈ us, Expected s repo u) : ∃ e, updateRefs mode s repo us = (s, .error e) := by
  have hsound := (runBody_updates mode s repo us [] hnames (fun _ _ w hw => absurd hw List.not_mem_nil)).1
  rw [updateRefs, Lock.runAtomic]
  cases hrun : Lock.runBody mode s (us.map (updateAccess repo)) [] with
  | ok ws => exact absurd (hsound ws hrun).1 hall
  | error e => exact ⟨e, rfl⟩

theorem expected_of_ok {mode : Lock.LockRead} {s s' : Store} (hnames : (us.map (·.refname)).Nodup)
    (h : updateRefs mode s repo us = (s', .ok ())) :
    (∀ u ∈ us, Expected s repo u) ∧ s' = Lock.applyWrites s (batchWrites repo us) := by
  by_cases hall : ∀ u ∈ us, Expected s repo u
  · rw [updateRefs_of_expected mode hnames hall] at h
    exact ⟨hall, (Prod.mk.inj h).1.symm⟩
  · obtain ⟨e, he⟩ := updateRefs_of_not_expected mode hnames hall
    rw [he] at h
    exact absurd (Prod.mk.inj h).2 (by simp)

theorem batchWrites_other (s : Store) {repo r : UInt64} {n : String}
    (h : r = repo → ∀ u ∈ us, u.refname ≠ n) :
    (Lock.applyWrites s (batchWrites repo us))[refkey r n]? = s[refkey r n]? := by
  refine Lock.get_applyWrites_of_notMem s (batchWrites repo us) _ fun w hw hkey => ?_
  obtain ⟨u, hu, rfl⟩ := List.mem_map.mp hw
  obtain ⟨hrepo, hname⟩ := refkey_inj.mp hkey
  exact h hrepo.symm u hu hname

theorem batchWrites_named (s : Store) (hnames : (us.map (·.refname)).Nodup) (hu : u ∈ us) :
    (Lock.applyWrites s (batchWrites repo us))[refkey repo u.refname]? = newValue u := by
  induction us generalizing s with
  | nil => exact absurd hu List.not_mem_nil
  | cons v us ih =>
    rw [List.map_cons, List.nodup_cons] at hnames
    have hcons : Lock.applyWrites s (batchWrites repo (v :: us))
        = Lock.applyWrites (Lock.KeyStore.set s (refkey repo v.refname) (newValue v)) (batchWrites repo us) := rfl
    rw [hcons]
    rcases List.mem_cons.mp hu with rfl | hu
    · have hlater : repo = repo → ∀ w ∈ us, w.refname ≠ u.refname :=
        fun _ w hw heq => hnames.1 (heq ▸ List.mem_map_of_mem hw)
      rw [batchWrites_other _ hlater, ← get_eq, Lock.KeyStore.get_set_self]
    · exact ih _ hnames.2 hu

/-! ### Representing a ref map -/

/-- The store holds the refs of the map, twenty bytes each, and no other ref. -/
def Represents (s : Store) (refs : RefMap UInt64) : Prop :=
  ∀ repo name, s[refkey repo name]? = (refs repo name).map ObjectId.bytes

/-- Every stored ref value has twenty bytes. -/
def WellFormed (s : Store) : Prop := ∀ repo name v, s[refkey repo name]? = some v → v.length = 20

def refMap (s : Store) : RefMap UInt64 :=
  fun repo name => s[refkey repo name]?.bind ObjectId.tryFrom

theorem represents_refMap (h : WellFormed s) : Represents s (refMap s) := by
  intro repo name
  rw [refMap]
  cases hget : s[refkey repo name]? with
  | none => rfl
  | some v => simp [ObjectId.tryFrom, h repo name v hget]

theorem refMap_eq (h : Represents s refs) : refMap s = refs := by
  funext repo name
  rw [refMap, h]
  cases refs repo name <;> simp

theorem represents_set (h : Represents s refs) (repo : UInt64) (name : String)
    (v : Option ObjectId) :
    Represents (Lock.KeyStore.set s (refkey repo name) (v.map ObjectId.bytes))
      (refs.set repo name v) := by
  intro r n
  by_cases hsame : r = repo ∧ n = name
  · obtain ⟨rfl, rfl⟩ := hsame
    rw [RefMap.set_self, ← get_eq, Lock.KeyStore.get_set_self]
  · have hkey : refkey r n ≠ refkey repo name := fun heq => hsame (refkey_inj.mp heq)
    rw [RefMap.set_ne _ _ hsame, ← get_eq, Lock.KeyStore.get_set_ne _ _ _ _ hkey]
    exact h r n

theorem represents_batchWrites (h : Represents s refs) (repo : UInt64) (us : List RefUpdate) :
    Represents (Lock.applyWrites s (batchWrites repo us)) (refs.applyAll repo us) := by
  induction us generalizing s refs with
  | nil => exact h
  | cons u us ih =>
    have hone := represents_set h repo u.refname (RefUpdate.value u.newOid)
    rw [← newValue_eq] at hone
    exact ih hone

theorem expected_iff (h : Represents s refs) (repo : UInt64) (u : RefUpdate) :
    Expected s repo u ↔ refs.Expects repo u := by
  rw [Expected, h, decodeRef_map, Except.ok.injEq, RefMap.Expects]

/-- **The KV ref transaction is the compare-and-swap** of the map its store represents, for every
batch that names each ref once. -/
theorem updateRefs_implements (mode : Lock.LockRead) (h : Represents s refs) (repo : UInt64)
    (hnames : (us.map (·.refname)).Nodup) :
    RefMap.Implements Represents refs repo us s (updateRefs mode s repo us) := by
  have hexp : (∀ u ∈ us, Expected s repo u) ↔ ∀ u ∈ us, refs.Expects repo u :=
    forall₂_congr fun u _ => expected_iff h repo u
  refine RefMap.Implements.of_expects (fun hall => ?_) (fun hall => ?_)
  · rw [updateRefs_of_expected mode hnames (hexp.mpr hall)]
    exact ⟨rfl, represents_batchWrites h repo us⟩
  · obtain ⟨e, he⟩ := updateRefs_of_not_expected mode hnames fun hno => hall (hexp.mp hno)
    rw [he]
    exact ⟨⟨e, rfl⟩, rfl⟩

theorem runBody_follows {mode : Lock.LockRead} {refs₀ refs : RefMap UInt64}
    (h₀ : Represents s refs₀) {writes ws : List (Bytes × Option Bytes)}
    (h : Represents (Lock.applyWrites s writes) refs)
    (hrun : Lock.runBody mode s (us.map (updateAccess repo)) writes = .ok ws) :
    RefMap.Follows repo refs₀ refs us ∧ ws = writes ++ batchWrites repo us := by
  induction us generalizing refs writes with
  | nil =>
    obtain rfl := Except.ok.inj hrun
    exact ⟨trivial, (List.append_nil _).symm⟩
  | cons u us ih =>
    rw [List.map_cons, Lock.runBody] at hrun
    split at hrun
    · simp at hrun
    · rename_i w hact
      obtain ⟨hread, rfl⟩ := updateAccess_act.mp hact
      have hexp : refs₀.Expects repo u ∨ refs.Expects repo u := by
        cases mode with
        | committed => exact Or.inl ((expected_iff h₀ repo u).mp hread)
        | buffered => exact Or.inr ((expected_iff h repo u).mp hread)
      have hnext : Represents (Lock.applyWrites s (writes ++ [((updateAccess repo u).key, newValue u)]))
          (refs.apply repo u) := by
        rw [Lock.applyWrites, List.foldl_append, newValue_eq]
        exact represents_set h repo u.refname _
      obtain ⟨hfollows, hws⟩ := ih hnext hrun
      refine ⟨⟨hexp, hfollows⟩, ?_⟩
      rw [hws, List.append_assoc]
      rfl

theorem updateRefs_follows (mode : Lock.LockRead) (h : Represents s refs) (repo : UInt64)
    (us : List RefUpdate) : (updateRefs mode s repo us).1 = s ∨
      RefMap.Follows repo refs refs us ∧ (updateRefs mode s repo us).1 = Lock.applyWrites s (batchWrites repo us) := by
  rw [updateRefs, Lock.runAtomic]
  split
  · rename_i ws hbody
    have hempty : Represents (Lock.applyWrites s []) refs := h
    obtain ⟨hfollows, rfl⟩ := runBody_follows h hempty hbody
    exact Or.inr ⟨hfollows, rfl⟩
  · exact Or.inl rfl

/-! ### Which batches go through -/

/-- What the body of a batch asks of the map: in the mode `committed` of the map before the batch,
in the mode `buffered` of the one that the commands before left. -/
def Accepts : Lock.LockRead → UInt64 → RefMap UInt64 → List RefUpdate → Prop
  | .committed, repo, refs, us => ∀ u ∈ us, refs.Expects repo u
  | .buffered, repo, refs, us => refs.InTurn (fun refs u => refs.Expects repo u) repo us

theorem updateAccess_iff (mode : Lock.LockRead) {refs₀ refs : RefMap UInt64}
    (h₀ : Represents s refs₀) (h : Represents (Lock.applyWrites s writes) refs) (repo : UInt64)
    (u : RefUpdate) (w : Option Bytes) :
    (updateAccess repo u).act (Lock.lockRead mode s writes (updateAccess repo u).key) = .ok w ↔
      (match mode with | .committed => refs₀ | .buffered => refs).Expects repo u ∧ w = newValue u := by
  rw [updateAccess_act]
  refine and_congr_left fun _ => ?_
  cases mode with
  | committed => exact expected_iff h₀ repo u
  | buffered => exact expected_iff h repo u

theorem represents_snoc (repo : UInt64) (u : RefUpdate)
    (h : Represents (Lock.applyWrites s writes) refs) :
    Represents (Lock.applyWrites s (writes ++ [((updateAccess repo u).key, newValue u)]))
      (refs.apply repo u) := by
  rw [Lock.applyWrites, List.foldl_append, newValue_eq]
  exact represents_set h repo u.refname _

theorem runBody_iff (mode : Lock.LockRead) {refs₀ refs : RefMap UInt64} (h₀ : Represents s refs₀)
    (h : Represents (Lock.applyWrites s writes) refs) :
    (∃ ws, Lock.runBody mode s (us.map (updateAccess repo)) writes = .ok ws) ↔
      match mode with
      | .committed => ∀ u ∈ us, refs₀.Expects repo u
      | .buffered => refs.InTurn (fun refs u => refs.Expects repo u) repo us := by
  induction us generalizing refs writes with
  | nil => cases mode <;> simp [Lock.runBody, RefMap.InTurn]
  | cons u us ih =>
    have hone := updateAccess_iff mode h₀ h repo u
    have hrest := ih (represents_snoc repo u h)
    rw [List.map_cons, Lock.runBody]
    cases hact : (updateAccess repo u).act (Lock.lockRead mode s writes (updateAccess repo u).key) with
    | error e =>
      have hnot : ¬ (match mode with | .committed => refs₀ | .buffered => refs).Expects repo u := fun hexp => by
        simpa [hact] using (hone (newValue u)).mpr ⟨hexp, rfl⟩
      cases mode with
      | committed => simpa using fun hexp => absurd hexp hnot
      | buffered => simpa [RefMap.InTurn] using fun hexp => absurd hexp hnot
    | ok w =>
      obtain ⟨hexp, rfl⟩ := (hone w).mp hact
      dsimp only
      rw [hrest]
      cases mode with
      | committed => simp only [List.forall_mem_cons, and_iff_right hexp]
      | buffered => rw [RefMap.InTurn, and_iff_right hexp]

/-- **Which batches the KV ref transaction carries out**, whatever refs they name how often. -/
theorem updateRefs_iff (mode : Lock.LockRead) (h : Represents s refs) (repo : UInt64)
    (us : List RefUpdate) : ((updateRefs mode s repo us).2 = .ok () ↔ Accepts mode repo refs us) ∧
      (Accepts mode repo refs us → Represents (updateRefs mode s repo us).1 (refs.applyAll repo us)) := by
  have hempty : Represents (Lock.applyWrites s []) refs := h
  have hbody : (∃ ws, Lock.runBody mode s (us.map (updateAccess repo)) [] = .ok ws) ↔ Accepts mode repo refs us := by
    rw [runBody_iff mode h hempty]
    cases mode <;> rfl
  rw [updateRefs, Lock.runAtomic]
  cases hrun : Lock.runBody mode s (us.map (updateAccess repo)) [] with
  | error e =>
    have hnot : ¬ Accepts mode repo refs us := by simp [← hbody, hrun]
    exact ⟨iff_of_false (by simp) hnot, fun hyes => absurd hyes hnot⟩
  | ok ws =>
    obtain ⟨-, rfl⟩ := runBody_follows h hempty hrun
    refine ⟨iff_of_true rfl (hbody.mp ⟨_, hrun⟩), fun _ => ?_⟩
    exact represents_batchWrites h repo us

theorem get_updateRefs (mode : Lock.LockRead) (h : Represents s refs) (repo : UInt64)
    (us : List RefUpdate) {key : Bytes} (hkey : ∀ name, refkey repo name ≠ key) :
    (updateRefs mode s repo us).1[key]? = s[key]? := by
  rw [updateRefs, Lock.runAtomic]
  cases hrun : Lock.runBody mode s (us.map (updateAccess repo)) [] with
  | error e => rfl
  | ok ws =>
    have hempty : Represents (Lock.applyWrites s []) refs := h
    obtain ⟨-, rfl⟩ := runBody_follows h hempty hrun
    refine Lock.get_applyWrites_of_notMem s _ key fun w hw => ?_
    rw [List.nil_append] at hw
    obtain ⟨u, -, rfl⟩ := List.mem_map.mp hw
    exact hkey u.refname

end Mizzle.Kv
