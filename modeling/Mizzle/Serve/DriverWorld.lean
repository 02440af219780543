import Mizzle.Serve.DriverRuns

/-!
# A push driver at work

The environment of a push driver put together from its parts: a storage backend with its stored
state, a deterministic access value, and the client's connection, which may break after any number
of bytes.
-/

namespace Mizzle.Serve.Driver

open Lib Proto

/-- The operations of `StorageBackend` that a push driver calls, on the stored state `σ`. -/
structure StorageBackend (σ ρ Repo Pack : Type) where
  initRepo : σ → ρ → σ × Except String Unit
  openRepo : σ → ρ → Except String Repo
  listRefs : σ → Repo → Except String RefsSnapshot
  ingestPack : σ → Repo → Bytes → σ × Except String (Option Pack)
  inspectIngested : σ → Pack → Except String PackMetadata
  rollbackIngest : σ → Pack → σ
  computePushKind : σ → Repo → RefUpdate → PushKind
  updateRefs : σ → Repo → List RefUpdate → σ × Except String Unit

/-- A deterministic `RepoAccess`. The full authorisation reads the store through the accessors of
its comparison. -/
structure RepoAccess (σ ρ Ctx : Type) where
  repoId : ρ
  autoInit : Bool
  authorizePreliminary : List PushRef → Except String Ctx
  authorizePush : Ctx → ComparisonArgs → σ → Except String Unit

/-- The transport's side: how many bytes the client takes (`none`: all), and whether the body can be
staged. -/
structure Wire where
  capacity : Option Nat
  stagingError : Option String

/-- The stored state and the bytes the client has received. -/
structure Session (σ : Type) where
  store : σ
  sent : Bytes

/-- One write: the client receives what it still takes. -/
def send (capacity : Option Nat) (sent : Bytes) (packet : Packet) : Bytes × Except String Unit :=
  match capacity with
  | none => (sent ++ packet.encode, .ok ())
  | some n =>
    if (sent ++ packet.encode).length ≤ n then (sent ++ packet.encode, .ok ())
    else ((sent ++ packet.encode).take n, .error "broken pipe")

/-- `stage_pack`: an empty body stages nothing. -/
def stage (stagingError : Option String) (body : Bytes) : Except String (Option Bytes) :=
  match stagingError with
  | some e => .error e
  | none => .ok (if body = [] then none else some body)

variable {σ ρ Repo Pack Ctx : Type}

/-- The environment's answer to a call. -/
def world (b : StorageBackend σ ρ Repo Pack) (a : RepoAccess σ ρ Ctx) (c : Wire) (s : Session σ) :
    (op : Op ρ Repo Pack Ctx) → Session σ × op.Res
  | .initRepo repoId => ({ s with store := (b.initRepo s.store repoId).1 }, (b.initRepo s.store repoId).2)
  | .openRepo repoId => (s, b.openRepo s.store repoId)
  | .listRefs repo => (s, b.listRefs s.store repo)
  | .authorizePreliminary refs => (s, a.authorizePreliminary refs)
  | .stagePack body => (s, stage c.stagingError body)
  | .ingestPack repo staged =>
    ({ s with store := (b.ingestPack s.store repo staged).1 }, (b.ingestPack s.store repo staged).2)
  | .inspectIngested pack => (s, b.inspectIngested s.store pack)
  | .rollbackIngest pack => ({ s with store := b.rollbackIngest s.store pack }, ())
  | .computePushKind repo u => (s, b.computePushKind s.store repo u)
  | .authorizePush ctx comparison => (s, a.authorizePush ctx comparison s.store)
  | .updateRefs repo updates =>
    ({ s with store := (b.updateRefs s.store repo updates).1 }, (b.updateRefs s.store repo updates).2)
  | .postReceive _ => (s, ())
  | .write packet => ({ s with sent := (send c.capacity s.sent packet).1 }, (send c.capacity s.sent packet).2)

variable {b : StorageBackend σ ρ Repo Pack} {a : RepoAccess σ ρ Ctx} {c : Wire}

/-! ### The drivers' helpers at work -/

theorem exec_buildPushRefsAsync (repo : Repo) (updates : List RefUpdate) (s : Session σ) :
    ((buildPushRefsAsync repo updates).exec (world b a c) s).state = s ∧
      ((buildPushRefsAsync repo updates).exec (world b a c) s).value
        = buildPushRefs (b.computePushKind s.store repo) updates := by
  induction updates with
  | nil => exact ⟨rfl, rfl⟩
  | cons u rest ih =>
    rw [buildPushRefsAsync, computePushKind, Program.exec_perform_bind, Program.exec_bind]
    exact ⟨ih.1, congrArg (pushRef (b.computePushKind s.store repo u) u :: ·) ih.2⟩

theorem exec_writeLines_store (lines : List Bytes) (s : Session σ) :
    ((writeLines lines).exec (world b a c) s).state.store = s.store := by
  induction lines generalizing s with
  | nil => rfl
  | cons text rest ih =>
    rw [writeLines, textToWrite, Program.exec_bind]
    split
    · rw [Program.Outcome.after_state]
      have hstore : ((write (.line text) : Prog ρ Repo Pack Ctx _).exec (world b a c) s).state.store = s.store := rfl
      rw [← hstore]
      generalize (write (.line text) : Prog ρ Repo Pack Ctx _).exec (world b a c) s = o
      rcases o.value with e | ⟨⟩
      · rfl
      · exact ih o.state
    · rfl

theorem exec_writeFlushed_store (lines : List Bytes) (s : Session σ) :
    ((writeFlushed lines).exec (world b a c) s).state.store = s.store := by
  rw [writeFlushed, Program.exec_bind, Program.Outcome.after_state, ← exec_writeLines_store (b := b) (a := a) lines s]
  generalize (writeLines lines).exec (world b a c) s = o
  rcases o.value with e | ⟨⟩
  · rfl
  · rfl

theorem exec_updateRefsAndReport_store (repo : Repo) (updates : List RefUpdate) (s : Session σ) :
    ((updateRefsAndReport repo updates).exec (world b a c) s).state.store
      = (b.updateRefs s.store repo updates).1 := by
  rw [updateRefsAndReport, updateRefs, Program.exec_perform_bind, Program.Outcome.after_state]
  rcases hresult : (b.updateRefs s.store repo updates).2 with e | ⟨⟩
  · simp only [world, hresult]
    rfl
  · simp only [world, hresult]
    exact exec_writeFlushed_store _ _

end Mizzle.Serve.Driver
