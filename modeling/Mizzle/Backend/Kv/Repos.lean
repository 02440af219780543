import Mizzle.Backend.Kv.Layout
import Mizzle.Lib.Runs

/-!
# Repository ids of the KV backend

`init_repo_inner` and `open_inner` of `mizzle/src/backend/kv/mod.rs`, for any number of calls at
once. A transaction reads the snapshot of its start with `get`; `get_for_update` and `put` of a
pessimistic transaction lock the key, wait for its holder, and act on the latest committed state; a
commit applies all writes and releases the locks.

The re-check of `repo_index` inside the pessimistic transaction is a `get`. It sees the snapshot, so
it misses an allocation for the same path that was committed after its own transaction began, and
the path is given a second id (`repo_id_changes`). The ids are stable in the runs in which this does
not happen: whenever an allocation locks the counter, its path has no id yet (`repo_ids_stable`).
-/

namespace Mizzle.Kv.Repos

open Lib

def encodeU64 (v : UInt64) : Bytes := be64 v

def decodeU64 (bytes : Bytes) : Except String UInt64 :=
  if bytes.length = 8 then .ok (UInt64.ofNat (ofBigEndian bytes))
  else .error ("expected 8-byte u64, got " ++ toString bytes.length ++ " bytes")

/-- How far a transaction that has read the counter is. -/
inductive AllocStage where
  | counted
  | counterPut
  | indexPut
  | metaPut
deriving DecidableEq

inductive Call where
  | idle
  /-- `init_repo`, with the snapshot of the probe. -/
  | probing (path : String) (snapshot : Store)
  | probed (path : String)
  /-- The pessimistic transaction has begun. -/
  | allocating (path : String) (snapshot : Store)
  | rechecked (path : String)
  /-- The counter is locked, and was `next`. -/
  | holding (path : String) (next : UInt64) (stage : AllocStage)
  | opening (path : String) (snapshot : Store)
  | returned (path : String) (result : Except String UInt64)

def Call.path : Call → Option String
  | .idle | .returned _ _ => none
  | .probing path _ | .probed path | .allocating path _ | .rechecked path | .holding path _ _ |
    .opening path _ => some path

inductive Action where
  | initRepo (path : String)
  | get
  | beginAlloc
  | lockCounter
  | put
  | commit
  | openRepo (path : String)
  /-- A request fails; a transaction that is under way is rolled back. -/
  | fail (e : String)

structure State (ι : Type) where
  store : Store
  holder : Bytes → Option ι
  calls : ι → Call

def nextId (store : Store) : Except String UInt64 :=
  match store[nextRepoId]? with
  | some bytes => (decodeU64 bytes).mapError fun _ => "decoding repo_id counter"
  | none => .ok 1

def allocWrites (path : String) (next : UInt64) : List (Bytes × Option Bytes) :=
  [(nextRepoId, some (encodeU64 (next + 1))), (repoIndex path, some (encodeU64 next)),
    (repoMeta next repoMetaExists, some [])]

variable {ι : Type}

/-- The start: nothing is locked, and no call has begun. -/
def State.init (store : Store) : State ι := ⟨store, fun _ => none, fun _ => .idle⟩

section Step

variable [DecidableEq ι]

def State.setCall (s : State ι) (i : ι) (c : Call) : State ι :=
  { s with calls := Function.update s.calls i c }

def State.lock (s : State ι) (i : ι) (key : Bytes) : State ι :=
  { s with holder := Function.update s.holder key (some i) }

def State.release (s : State ι) (i : ι) : State ι := { s with holder := Lock.release s.holder i }

/-- What a read of `repo_index` gives: the id, or where the call goes on without one. -/
def readIndex (path : String) (snapshot : Store) (absent : Call) : Call :=
  match snapshot[repoIndex path]? with
  | some bytes => .returned path ((decodeU64 bytes).mapError fun _ => "decoding repo_id")
  | none => absent

/-- One step of call `i`. -/
def callStep (s : State ι) (i : ι) (action : Action) : Option (State ι) :=
  match s.calls i, action with
  | .idle, .initRepo path => some (s.setCall i (.probing path s.store))
  | .probing path snapshot, .get => some (s.setCall i (readIndex path snapshot (.probed path)))
  | .probed path, .beginAlloc => some (s.setCall i (.allocating path s.store))
  | .allocating path snapshot, .get => some (s.setCall i (readIndex path snapshot (.rechecked path)))
  | .rechecked path, .lockCounter =>
    if s.holder nextRepoId = none then
      match nextId s.store with
      | .ok next => some ((s.lock i nextRepoId).setCall i (.holding path next .counted))
      | .error e => some (s.setCall i (.returned path (.error e)))
    else none
  | .holding path next .counted, .put => some (s.setCall i (.holding path next .counterPut))
  | .holding path next .counterPut, .put =>
    if s.holder (repoIndex path) = none then
      some ((s.lock i (repoIndex path)).setCall i (.holding path next .indexPut))
    else none
  | .holding path next .indexPut, .put =>
    if s.holder (repoMeta next repoMetaExists) = none then
      some ((s.lock i (repoMeta next repoMetaExists)).setCall i (.holding path next .metaPut))
    else none
  | .holding path next .metaPut, .commit =>
    some (({ s with store := Lock.applyWrites s.store (allocWrites path next) }.release i).setCall i
      (.returned path (.ok next)))
  | .idle, .openRepo path => some (s.setCall i (.opening path s.store))
  | .opening path snapshot, .get =>
    some (s.setCall i (readIndex path snapshot
      (.returned path (.error (path.quote ++ " does not appear to be a git repository")))))
  | call, .fail e => call.path.map fun path => (s.release i).setCall i (.returned path (.error e))
  | _, _ => none

def step (s : State ι) (e : ι × Action) : Option (State ι) := callStep s e.1 e.2

end Step

/-- When an allocation locks the counter, its path has no id, and the counter is not at its end. -/
def Unraced (s : State ι) : ι × Action → Prop
  | (i, .lockCounter) => ∀ path, s.calls i = .rechecked path →
    s.store[repoIndex path]? = none ∧ ∀ next, nextId s.store = .ok next → next.toNat + 1 < 2 ^ 64
  | _ => True

/-- The condition as a check that can be evaluated. -/
def UnracedCheck (s : State ι) : ι × Action → Prop
  | (i, .lockCounter) =>
    (match s.calls i with
    | .rechecked path => s.store[repoIndex path]? = none
    | _ => True) ∧
    match nextId s.store with
    | .ok next => next.toNat + 1 < 2 ^ 64
    | .error _ => True
  | _ => True

instance (s : State ι) (e : ι × Action) : Decidable (UnracedCheck s e) := by
  unfold UnracedCheck
  split
  · refine @instDecidableAnd _ _ ?_ ?_ <;> split <;> infer_instance
  · infer_instance

theorem Unraced.of_check {s : State ι} {e : ι × Action} (h : UnracedCheck s e) : Unraced s e := by
  obtain ⟨i, action⟩ := e
  cases action with
  | lockCounter =>
    obtain ⟨hnew, hroom⟩ := h
    intro path hcall
    rw [hcall] at hnew
    refine ⟨hnew, fun next hnext => ?_⟩
    rwa [hnext] at hroom
  | _ => trivial

/-! ### Stores -/

theorem decodeU64_encodeU64 (v : UInt64) : decodeU64 (encodeU64 v) = .ok v := by
  have hlt : v.toNat < 256 ^ 8 := v.toNat_lt
  rw [decodeU64, encodeU64, if_pos (length_be64 v), be64, ofBigEndian_bigEndian hlt, UInt64.ofNat_toNat]

/-- The ids of paths are below the counter, and different. -/
structure StoreInv (store : Store) : Prop where
  ids : ∃ next, nextId store = .ok next ∧
    ∀ path bytes, store[repoIndex path]? = some bytes → ∃ id, bytes = encodeU64 id ∧ id < next
  distinct : ∀ path path' bytes, store[repoIndex path]? = some bytes →
    store[repoIndex path']? = some bytes → path = path'

/-- The ids that a path has stay. -/
def Grows (store store' : Store) : Prop :=
  ∀ path bytes, store[repoIndex path]? = some bytes → store'[repoIndex path]? = some bytes

theorem Grows.refl (store : Store) : Grows store store := fun _ _ h => h

theorem Grows.trans {a b c : Store} (h : Grows a b) (h' : Grows b c) : Grows a c :=
  fun path bytes hget => h' path bytes (h path bytes hget)

theorem repoIndex_ne_nextRepoId (path : String) : repoIndex path ≠ nextRepoId := by
  simp [repoIndex, nextRepoId, prefixRepoIndex, prefixNextRepoId]

theorem repoMeta_ne_nextRepoId (id : UInt64) (tag : UInt8) : repoMeta id tag ≠ nextRepoId := by
  simp [repoMeta, nextRepoId, prefixRepoMeta, prefixNextRepoId]

theorem repoMeta_ne_repoIndex (id : UInt64) (tag : UInt8) (path : String) :
    repoMeta id tag ≠ repoIndex path := by
  simp [repoMeta, repoIndex, prefixRepoMeta, prefixRepoIndex]

theorem repoIndex_allocWrites (store : Store) (path : String) (next : UInt64) (path' : String) :
    (Lock.applyWrites store (allocWrites path next))[repoIndex path']? =
      if path' = path then some (encodeU64 next) else store[repoIndex path']? := by
  have hcounter := repoIndex_ne_nextRepoId path'
  have hmeta := (repoMeta_ne_repoIndex next repoMetaExists path').symm
  simp only [← get_eq, allocWrites, Lock.applyWrites, List.foldl_cons, List.foldl_nil]
  rw [Lock.KeyStore.get_set_ne _ _ _ _ hmeta]
  split
  · rename_i hpath
    rw [hpath, Lock.KeyStore.get_set_self]
  · rename_i hpath
    rw [Lock.KeyStore.get_set_ne _ _ _ _ fun heq => hpath (repoIndex_inj heq),
      Lock.KeyStore.get_set_ne _ _ _ _ hcounter]

theorem nextId_allocWrites (store : Store) (path : String) (next : UInt64) :
    nextId (Lock.applyWrites store (allocWrites path next)) = .ok (next + 1) := by
  have hget : (Lock.applyWrites store (allocWrites path next))[nextRepoId]? = some (encodeU64 (next + 1)) := by
    simp only [← get_eq, allocWrites, Lock.applyWrites, List.foldl_cons, List.foldl_nil]
    rw [Lock.KeyStore.get_set_ne _ _ _ _ (repoMeta_ne_nextRepoId next repoMetaExists).symm,
      Lock.KeyStore.get_set_ne _ _ _ _ (repoIndex_ne_nextRepoId path).symm, Lock.KeyStore.get_set_self]
  rw [nextId, hget]
  simp [decodeU64_encodeU64, Except.mapError]

variable {path : String} {store : Store}

theorem Grows.allocWrites (hnew : store[repoIndex path]? = none) (next : UInt64) :
    Grows store (Lock.applyWrites store (allocWrites path next)) := by
  intro path' bytes hget
  have hne : path' ≠ path := by
    rintro rfl
    simp [hnew] at hget
  rw [repoIndex_allocWrites, if_neg hne, hget]

theorem StoreInv.allocWrites (h : StoreInv store) {next : UInt64} (hnext : nextId store = .ok next)
    (hroom : next.toNat + 1 < 2 ^ 64) :
    StoreInv (Lock.applyWrites store (allocWrites path next)) := by
  obtain ⟨next', hnext', hids⟩ := h.ids
  obtain rfl : next = next' := Except.ok.inj (hnext.symm.trans hnext')
  have hsucc : (next + 1).toNat = next.toNat + 1 := by
    rw [UInt64.toNat_add, UInt64.toNat_one, Nat.mod_eq_of_lt hroom]
  -- the new id is above all ids that were given
  have hfresh : ∀ path', store[repoIndex path']? ≠ some (encodeU64 next) := by
    intro path' hget
    obtain ⟨id, hid, hlt⟩ := hids path' _ hget
    rw [be64_injective hid] at hlt
    exact UInt64.lt_irrefl _ hlt
  refine ⟨⟨next + 1, nextId_allocWrites store path next, fun path' bytes hget => ?_⟩,
    fun path₁ path₂ bytes h₁ h₂ => ?_⟩
  · rw [repoIndex_allocWrites] at hget
    split at hget
    · exact ⟨next, (Option.some.inj hget).symm, UInt64.lt_iff_toNat_lt.mpr (by omega)⟩
    · obtain ⟨id, hid, hlt⟩ := hids path' bytes hget
      exact ⟨id, hid, UInt64.lt_iff_toNat_lt.mpr (by have := UInt64.lt_iff_toNat_lt.mp hlt; omega)⟩
  · rw [repoIndex_allocWrites] at h₁ h₂
    split at h₁
    · split at h₂
      · simp_all
      · exact absurd (h₂.trans h₁.symm) (hfresh path₂)
    · split at h₂
      · exact absurd (h₁.trans h₂.symm) (hfresh path₁)
      · exact h.distinct path₁ path₂ bytes h₁ h₂

/-! ### The invariant -/

def CallInv (s : State ι) (i : ι) : Call → Prop
  | .probing _ snapshot | .allocating _ snapshot | .opening _ snapshot => Grows snapshot s.store
  | .holding path next _ => s.holder nextRepoId = some i ∧ nextId s.store = .ok next ∧
    s.store[repoIndex path]? = none ∧ next.toNat + 1 < 2 ^ 64
  | .returned path (.ok id) => s.store[repoIndex path]? = some (encodeU64 id)
  | _ => True

structure Inv (s : State ι) : Prop where
  store : StoreInv s.store
  call : ∀ i, CallInv s i (s.calls i)

theorem inv_init (h : StoreInv store) : Inv (State.init store : State ι) := ⟨h, fun _ => trivial⟩

variable {s s' : State ι} {i : ι} {c : Call}

theorem CallInv.frame (h : CallInv s i c) (hgrows : Grows s.store s'.store)
    (hheld : ∀ path next stage, c = .holding path next stage → s'.holder nextRepoId =
      s.holder nextRepoId ∧ s'.store = s.store) : CallInv s' i c := by
  cases c with
  | probing path snapshot | allocating path snapshot | opening path snapshot => exact Grows.trans h hgrows
  | holding path next stage =>
    obtain ⟨hholder, hstore⟩ := hheld path next stage rfl
    rw [CallInv, hholder, hstore]
    exact h
  | returned path result =>
    cases result with
    | ok id => exact hgrows path _ h
    | error e => trivial
  | _ => trivial

theorem Inv.readIndex (h : Inv s) {snapshot : Store} (hsnapshot : Grows snapshot s.store)
    {absent : Call} (habsent : CallInv s i absent) :
    CallInv s i (readIndex path snapshot absent) := by
  rw [Repos.readIndex]
  split
  · rename_i bytes hget
    obtain ⟨next, -, hids⟩ := h.store.ids
    obtain ⟨id, rfl, -⟩ := hids path bytes (hsnapshot path bytes hget)
    rw [decodeU64_encodeU64]
    exact hsnapshot path _ hget
  · exact habsent

variable [DecidableEq ι]

theorem Inv.move (h : Inv s) {holder : Bytes → Option ι}
    (hholder : ∀ j, j ≠ i → s.holder nextRepoId = some j → holder nextRepoId = some j)
    (hc : CallInv { s with holder } i c) : Inv ({ s with holder }.setCall i c) where
  store := h.store
  call j := by
    by_cases hj : j = i
    · subst hj
      have hcall : ({ s with holder }.setCall j c).calls j = c := Function.update_self ..
      rw [hcall]
      exact hc.frame (Grows.refl _) fun _ _ _ _ => ⟨rfl, rfl⟩
    · have hcall : ({ s with holder }.setCall i c).calls j = s.calls j := Function.update_of_ne hj _ _
      rw [hcall]
      refine (h.call j).frame (Grows.refl _) fun path next stage hholding => ⟨?_, rfl⟩
      have hj' := h.call j
      rw [hholding] at hj'
      exact (hholder j hj hj'.1).trans hj'.1.symm

theorem release_of_ne {holder : Bytes → Option ι} {j : ι} (hj : j ≠ i) {key : Bytes}
    (h : holder key = some j) : Lock.release holder i key = some j := by
  rw [Lock.release, h, if_neg fun heq => hj (Option.some.inj heq)]

theorem Inv.commit (h : Inv s) {next : UInt64} {stage : AllocStage}
    (hcall : s.calls i = .holding path next stage) :
    Inv (({ s with store := Lock.applyWrites s.store (allocWrites path next) }.release i).setCall i
      (.returned path (.ok next))) := by
  have hi := h.call i
  rw [hcall] at hi
  obtain ⟨hholder, hnext, hnew, hroom⟩ := hi
  refine ⟨h.store.allocWrites hnext hroom, fun j => ?_⟩
  by_cases hj : j = i
  · subst hj
    simp only [State.setCall, Function.update_self, CallInv]
    exact (repoIndex_allocWrites s.store path next path).trans (if_pos rfl)
  · simp only [State.setCall, Function.update_of_ne hj]
    refine (h.call j).frame (Grows.allocWrites hnew next) fun path' next' stage' hholding => ?_
    -- the counter has one holder
    have hj' := h.call j
    rw [hholding] at hj'
    exact absurd (Option.some.inj (hj'.1.symm.trans hholder)) hj

theorem Inv.callStep (h : Inv s) {action : Action} (hok : Unraced s (i, action))
    (hstep : callStep s i action = some s') : Inv s' := by
  have hi := h.call i
  have hmove : ∀ {c : Call}, CallInv s i c → Inv (s.setCall i c) := fun hc => h.move (fun _ _ hj => hj) hc
  unfold Repos.callStep at hstep
  split at hstep
  -- transactions begin
  case h_1 | h_3 | h_10 =>
    cases hstep
    exact hmove (Grows.refl _)
  -- the index is read
  case h_2 path snapshot hcall | h_4 path snapshot hcall | h_11 path snapshot hcall =>
    cases hstep
    rw [hcall] at hi
    exact hmove (h.readIndex hi trivial)
  -- the counter is locked
  case h_5 path hcall =>
    obtain ⟨hfree, hstep⟩ := Option.ite_none_right_eq_some.mp hstep
    obtain ⟨hnew, hroom⟩ := hok path hcall
    split at hstep
    · rename_i next hnext
      cases hstep
      refine h.move (fun j _ hj => by simp [hfree] at hj) ?_
      exact ⟨Function.update_self nextRepoId (some i) s.holder, hnext, hnew, hroom next hnext⟩
    · cases hstep
      exact hmove trivial
  -- other keys are locked
  case h_6 path next hcall =>
    cases hstep
    rw [hcall] at hi
    exact hmove hi
  case h_7 path next hcall =>
    obtain ⟨-, hstep⟩ := Option.ite_none_right_eq_some.mp hstep
    cases hstep
    rw [hcall] at hi
    have hkey := Function.update_of_ne (repoIndex_ne_nextRepoId path).symm (some i) s.holder
    exact h.move (fun j _ hj => hkey.trans hj) ⟨hkey.trans hi.1, hi.2⟩
  case h_8 path next hcall =>
    obtain ⟨-, hstep⟩ := Option.ite_none_right_eq_some.mp hstep
    cases hstep
    rw [hcall] at hi
    have hkey := Function.update_of_ne (repoMeta_ne_nextRepoId next repoMetaExists).symm (some i) s.holder
    exact h.move (fun j _ hj => hkey.trans hj) ⟨hkey.trans hi.1, hi.2⟩
  case h_9 path next hcall =>
    cases hstep
    exact h.commit hcall
  -- a rollback
  case h_12 =>
    obtain ⟨path, -, rfl⟩ := Option.map_eq_some_iff.mp hstep
    exact h.move (fun j hj hheld => release_of_ne hj hheld) trivial
  case h_13 => simp at hstep

theorem Inv.grows (h : Inv s) {action : Action} (hstep : Repos.callStep s i action = some s') :
    Grows s.store s'.store := by
  have hi := h.call i
  unfold Repos.callStep at hstep
  split at hstep
  case h_9 path next hcall =>
    cases hstep
    rw [hcall] at hi
    exact Grows.allocWrites hi.2.2.1 next
  case h_5 path hcall =>
    obtain ⟨-, hstep⟩ := Option.ite_none_right_eq_some.mp hstep
    split at hstep
    all_goals
      cases hstep
      exact Grows.refl _
  case h_7 | h_8 =>
    obtain ⟨-, hstep⟩ := Option.ite_none_right_eq_some.mp hstep
    cases hstep
    exact Grows.refl _
  case h_12 =>
    obtain ⟨path, -, rfl⟩ := Option.map_eq_some_iff.mp hstep
    exact Grows.refl _
  case h_13 => simp at hstep
  all_goals
    cases hstep
    exact Grows.refl _

/-! ### Runs -/

/-- **When a path keeps its id.** In every run in which an allocation locks the counter only while
its path has no id and the counter has room, from a store whose ids are in order: an id that a path
has been given stays, calls for one path return one id, and different paths have different ids. -/
theorem repo_ids_stable {store : Store} (hstore : StoreInv store)
    (hrun : Runs step Unraced (.init store) s) (hrun' : Runs step Unraced s s') :
    (∀ path bytes, s.store[repoIndex path]? = some bytes → s'.store[repoIndex path]? = some bytes) ∧
    (∀ i j path id id', s'.calls i = .returned path (.ok id) → s'.calls j = .returned path (.ok id') → id = id') ∧
    (∀ i j path path' id, s'.calls i = .returned path (.ok id) →
      s'.calls j = .returned path' (.ok id) → path = path') ∧
    ∀ path path' bytes, s'.store[repoIndex path]? = some bytes →
      s'.store[repoIndex path']? = some bytes → path = path' := by
  have hinv : Inv s := hrun.invariant Inv (fun h hok hstep => h.callStep hok hstep) (inv_init hstore)
  have hboth : Inv s' ∧ Grows s.store s'.store :=
    hrun'.invariant (fun t => Inv t ∧ Grows s.store t.store)
      (fun ⟨h, hgrows⟩ hok hstep => ⟨h.callStep hok hstep, hgrows.trans (h.grows hstep)⟩) ⟨hinv, Grows.refl _⟩
  obtain ⟨hinv', hgrows⟩ := hboth
  have hreturned : ∀ {i path id}, s'.calls i = .returned path (.ok id) →
      s'.store[repoIndex path]? = some (encodeU64 id) := by
    intro i path id hcall
    have hi := hinv'.call i
    rwa [hcall] at hi
  refine ⟨hgrows, fun i j path id id' hi hj => ?_, fun i j path path' id hi hj => ?_, hinv'.store.distinct⟩
  · exact be64_injective (Option.some.inj ((hreturned hi).symm.trans (hreturned hj)))
  · exact hinv'.store.distinct path path' _ (hreturned hi) (hreturned hj)

theorem storeInv_empty : StoreInv ∅ where
  ids := ⟨1, by simp [nextId], fun path bytes hget => by simp at hget⟩
  distinct path path' bytes hget := by simp at hget

/-- The id that a call has returned for its path. -/
def Call.answer : Call → Option (String × UInt64)
  | .returned path (.ok id) => some (path, id)
  | _ => none

theorem Call.answer_eq_some {c : Call} {id : UInt64} (h : c.answer = some (path, id)) :
    c = .returned path (.ok id) := by
  unfold answer at h
  split at h
  · obtain ⟨rfl, rfl⟩ := Prod.mk.inj (Option.some.inj h)
    rfl
  · simp at h

/-- An allocation by call `i` from the lock on. -/
def allocEvents {n : Nat} (i : Fin n) : List (Fin n × Action) :=
  [(i, .lockCounter), (i, .put), (i, .put), (i, .put), (i, .commit)]

local instance (priority := 2000) neZeroThree : NeZero 3 := ⟨by decide⟩

/-- Calls `0` and `1` create two repositories at once. -/
def twoPaths : List (Fin 3 × Action) :=
  [(0, .initRepo "a"), (1, .initRepo "b"), (0, .get), (1, .get), (0, .beginAlloc), (1, .beginAlloc),
    (0, .get), (1, .get)]
    ++ allocEvents 0

/-- Call `2` opens the first repository while the second is created. -/
def thenOpen : List (Fin 3 × Action) := [(2, .openRepo "a")] ++ allocEvents 1 ++ [(2, .get)]

theorem repo_ids_stable_two_paths :
    ∃ s s' : State (Fin 3), s.store[repoIndex "a"]? = some (encodeU64 1) ∧
    s'.store[repoIndex "a"]? = some (encodeU64 1) ∧ s'.store[repoIndex "b"]? = some (encodeU64 2) ∧
    s'.calls 2 = .returned "a" (.ok 1) := by
  have hevents : ((runList step UnracedCheck (.init ∅) twoPaths).bind fun s =>
      (runList step UnracedCheck s thenOpen).map fun s' =>
        (s.store[repoIndex "a"]?, s'.store[repoIndex "b"]?,
          (s'.calls 2).answer)) =
      some (some (encodeU64 1), some (encodeU64 2), some ("a", 1)) := by decide +kernel
  obtain ⟨s, hfirst, hrest⟩ := Option.bind_eq_some_iff.mp hevents
  obtain ⟨s', hsecond, hend⟩ := Option.map_eq_some_iff.mp hrest
  simp only [Prod.mk.injEq] at hend
  obtain ⟨hindex, hindex', hopened⟩ := hend
  have hruns : ∀ {t t' : State (Fin 3)} {es}, runList step UnracedCheck t es = some t' → Runs step Unraced t t' :=
    fun hrun => (Runs.of_runList hrun).mono fun _ _ => Unraced.of_check
  obtain ⟨hstable, -⟩ := repo_ids_stable storeInv_empty (hruns hfirst) (hruns hsecond)
  exact ⟨s, s', hindex, hstable "a" _ hindex, hindex', Call.answer_eq_some hopened⟩

/-- Calls `0` and `1` create the same repository; both transactions begin before the first
commit. -/
def onePath : List (Fin 3 × Action) :=
  [(0, .initRepo "a"), (1, .initRepo "a"), (0, .get), (1, .get), (0, .beginAlloc), (1, .beginAlloc),
    (0, .get), (1, .get)]
    ++ allocEvents 0

/-- **The id of a path changes.** Call `0` is given `1`; call `1`, whose re-check has read the
snapshot, overwrites it with `2`, and a later `open` is given `2` as well. -/
theorem repo_id_changes : ∃ s s' : State (Fin 3), Runs step (fun _ _ => True) (.init ∅) s ∧
    Runs step (fun _ _ => True) s s' ∧ s.store[repoIndex "a"]? = some (encodeU64 1) ∧
    s'.store[repoIndex "a"]? = some (encodeU64 2) ∧ s'.calls 0 = .returned "a" (.ok 1) ∧
    s'.calls 1 = .returned "a" (.ok 2) ∧ s'.calls 2 = .returned "a" (.ok 2) := by
  have hevents : ((runList step (fun _ _ => True) (.init ∅) onePath).bind fun s =>
      (runList step (fun _ _ => True) s (allocEvents 1 ++ [(2, .openRepo "a"), (2, .get)])).map fun s' =>
        (s.store[repoIndex "a"]?, s'.store[repoIndex "a"]?,
          [(s'.calls 0).answer, (s'.calls 1).answer, (s'.calls 2).answer])) =
      some (some (encodeU64 1), some (encodeU64 2), [some ("a", 1), some ("a", 2), some ("a", 2)]) := by decide +kernel
  obtain ⟨s, hfirst, hrest⟩ := Option.bind_eq_some_iff.mp hevents
  obtain ⟨s', hsecond, hend⟩ := Option.map_eq_some_iff.mp hrest
  simp only [Prod.mk.injEq, List.cons.injEq] at hend
  obtain ⟨hindex, hindex', h₀, h₁, h₂, -⟩ := hend
  exact ⟨s, s', .of_runList hfirst, .of_runList hsecond, hindex, hindex', Call.answer_eq_some h₀,
    Call.answer_eq_some h₁,
    Call.answer_eq_some h₂⟩

end Mizzle.Kv.Repos
