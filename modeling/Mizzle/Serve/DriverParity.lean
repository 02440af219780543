import Mizzle.Serve.PushGate
import Mizzle.Serve.StorageBackends

/-!
# The two push drivers are one program

On a request with at least one command, `recv_pack_post` with its spawned task run to completion and
`serve_receive_pack` after its advertisement leave the same stored state, send the same bytes and
consult the access value in the same way. The drivers are compared program against program. They
share every beginning up to the verdict; then the HTTP driver decides by its list of rejections,
which is empty only without commands, and for `post_receive` it reuses the kinds that the SSH driver
asks for again after the ref transaction.
-/

namespace Mizzle.Serve.Driver

open Lib Proto

variable {σ Ω ρ Repo Pack Ctx : Type}

/-- The calls to the access value. -/
def Op.isAccess : Op ρ Repo Pack Ctx → Bool
  | .authorizePreliminary _ => true
  | .authorizePush _ _ => true
  | .postReceive _ => true
  | _ => false

/-- The calls to the access value in a trace, with their arguments and answers. -/
def consultations (t : Trace ρ Repo Pack Ctx) : Trace ρ Repo Pack Ctx :=
  t.filter fun e => e.1.isAccess

/-- `compute_push_kind` depends only on the stored objects and the oids of the command, and
`update_refs` leaves the objects alone. -/
structure KindsFromObjects (b : StorageBackend σ ρ Repo Pack) (objects : σ → Ω) : Prop where
  kinds : ∃ kindOf : Ω → Repo → ObjectId → ObjectId → PushKind,
    ∀ s repo u, b.computePushKind s repo u = kindOf (objects s) repo u.oldOid u.newOid
  updateRefs : ∀ s repo updates, objects (b.updateRefs s repo updates).1 = objects s

variable {objects : σ → Ω}

theorem KindsFromObjects.kind_updateRefs {b : StorageBackend σ ρ Repo Pack}
    (h : KindsFromObjects b objects) (s : σ) (repo repo' : Repo) (updates : List RefUpdate) :
    b.computePushKind (b.updateRefs s repo updates).1 repo' = b.computePushKind s repo' := by
  obtain ⟨kindOf, hkinds⟩ := h.kinds
  funext u
  rw [hkinds, hkinds, h.updateRefs]

theorem consultations_of_calls {t : Trace ρ Repo Pack Ctx} (h : calls t = []) :
    consultations t = [] := by
  have hsub : consultations t = consultations (calls t) := by
    rw [consultations, consultations, calls, List.filter_filter]
    refine List.filter_congr fun e _ => ?_
    obtain ⟨op, answer⟩ := e
    cases op <;> rfl
  rw [hsub, h]
  rfl

variable {b : StorageBackend σ ρ Repo Pack} {a : RepoAccess σ ρ Ctx} {c : Wire}

/-- Two runs that agree on the session and the consultations. -/
abbrev SameEffects {α β : Type}
    (x : Program.Outcome (Op.Res : Op ρ Repo Pack Ctx → Type) (Session σ) α)
    (y : Program.Outcome (Op.Res : Op ρ Repo Pack Ctx → Type) (Session σ) β) : Prop :=
  Program.Agree (fun e => e.1.isAccess) x y

theorem reject_agree (updates : List RefUpdate) (msg : String) (s : Session σ) :
    SameEffects ((runTask (rejectResponse updates msg)).exec (world b a c) s)
      ((rejectSession updates msg : Prog ρ Repo Pack Ctx _).exec (world b a c) s) := by
  rw [runTask, rejectResponse, Program.bind_assoc, rejectSession]
  refine Program.Agree.bind _ ?_
  generalize (writeReport (updates.map fun u => ngLine u.refname msg) : Prog ρ Repo Pack Ctx _).exec (world b a c) s = o
  rcases o.value with e | ⟨⟩
  · exact ⟨rfl, rfl⟩
  · exact ⟨rfl, rfl⟩

theorem zipWith_owned (pushRefs : List PushRef) :
    (pushRefs.map fun pr => (pr.refname, pr.kind)).zipWith
      (fun (name, kind) (old, new) => (⟨name, kind, old, new⟩ : PushRef))
      (pushRefs.map fun pr => (pr.oldOid, pr.newOid)) = pushRefs := by
  induction pushRefs with
  | nil => rfl
  | cons pr rest ih => exact congrArg (pr :: ·) ih

theorem carry_agree (hkinds : KindsFromObjects b objects) (repo : Repo) (updates : List RefUpdate)
    (packMeta : Option PackMetadata) (existing : List ObjectId) (s : Session σ) : SameEffects
      ((runTask (.result, postTask repo updates (buildPushRefs (b.computePushKind s.store repo) updates) packMeta
        existing)).exec (world b a c) s)
      ((do
        match ← updateRefsAndReport repo updates with
        | .error e => return .error (.other e)
        | .ok () =>
          let postRefs ← buildPushRefsAsync repo updates
          postReceive ⟨packMeta.getD emptyMeta, postRefs, existing⟩
          return .ok () : Prog ρ Repo Pack Ctx (Except DriverError Unit)).exec (world b a c) s) := by
  rw [runTask, postTask, Program.bind_assoc]
  refine Program.Agree.bind _ ?_
  have hstore := exec_updateRefsAndReport_store (b := b) (a := a) (c := c) repo updates s
  generalize (updateRefsAndReport repo updates : Prog ρ Repo Pack Ctx _).exec (world b a c) s = o at hstore ⊢
  rcases o.value with e | ⟨⟩
  · exact ⟨rfl, rfl⟩
  · refine (Program.Agree.skip (consultations_of_calls ?_) ?_).symm
    · exact (buildPushRefsAsync_quiet (Program.exec_runs ..)).calls_eq
    · obtain ⟨hstate, hvalue⟩ := exec_buildPushRefsAsync (b := b) (a := a) (c := c) repo updates o.state
      rw [hstate, hvalue, hstore, hkinds.kind_updateRefs]
      simp only [zipWith_owned]
      exact ⟨rfl, rfl⟩

theorem authorize_agree (hkinds : KindsFromObjects b objects) (repo : Repo) (ctx : Ctx)
    {updates : List RefUpdate} (hne : updates ≠ []) (pack : Option Pack)
    (packMeta : Option PackMetadata) (s : Session σ) :
    SameEffects ((authorizePost repo ctx updates pack packMeta >>= runTask).exec (world b a c) s)
      ((authorizeSession repo ctx updates pack packMeta).exec (world b a c) s) := by
  rw [authorizePost, authorizeSession, Program.bind_assoc]
  refine Program.Agree.bind _ ?_
  obtain ⟨hstate, hvalue⟩ := exec_buildPushRefsAsync (b := b) (a := a) (c := c) repo updates s
  rw [hstate, hvalue, Program.bind_assoc]
  refine Program.Agree.bind _ ?_
  have hlisted : ((existingRefTipsAsync repo (buildPushRefs (b.computePushKind s.store repo) updates) :
    Prog ρ Repo Pack Ctx _).exec (world b a c) s).state = s := rfl
  rw [hlisted, Program.bind_assoc]
  generalize ((existingRefTipsAsync repo (buildPushRefs (b.computePushKind s.store repo) updates) :
    Prog ρ Repo Pack Ctx _).exec (world b a c) s).value = existing
  refine Program.Agree.bind _ ?_
  have hasked : ((authorizePush ctx ⟨packMeta.getD emptyMeta, buildPushRefs (b.computePushKind s.store repo) updates,
    existing⟩ : Prog ρ Repo Pack Ctx _).exec (world b a c) s).state = s := rfl
  rw [hasked]
  rcases ((authorizePush ctx ⟨packMeta.getD emptyMeta, buildPushRefs (b.computePushKind s.store repo) updates,
    existing⟩ : Prog ρ Repo Pack Ctx _).exec (world b a c) s).value with msg | ⟨⟩
  · simp only [Program.bind_assoc]
    refine Program.Agree.bind _ ?_
    simp only [Program.pure_eq, Program.ret_bind, spawnTask_refused hne]
    exact reject_agree updates msg _
  · exact carry_agree hkinds repo updates packMeta existing s

theorem push_agree (hkinds : KindsFromObjects b objects) {limits : Receive.ProtocolLimits}
    {body rest : Bytes} {updates : List RefUpdate} {s : Session σ} {repo : Repo}
    (hread : Receive.readReceiveRequest limits body = .ok (updates, rest)) (hne : updates ≠ [])
    (hopen : b.openRepo s.store a.repoId = .ok repo) :
    SameEffects ((recvPackPostCompleted limits a.repoId body).exec (world b a c) s)
      ((servePush limits repo body).exec (world b a c) s) := by
  simp only [recvPackPostCompleted, recvPackPost, servePush, hread, Program.bind_assoc]
  refine Program.Agree.bind _ ?_
  -- the access value and the disk leave the session as it is
  have hasked : ((authorizePreliminary (buildPushRefs Receive.preliminaryPushKind updates) :
    Prog ρ Repo Pack Ctx _).exec (world b a c) s).state = s := rfl
  rw [hasked]
  rcases ((authorizePreliminary (buildPushRefs Receive.preliminaryPushKind updates) :
    Prog ρ Repo Pack Ctx _).exec (world b a c) s).value with msg | ctx
  · exact reject_agree updates msg s
  simp only [Program.bind_assoc]
  refine Program.Agree.skip rfl ?_
  have hopened : ((openRepo a.repoId : Prog ρ Repo Pack Ctx _).exec (world b a c) s).value = .ok repo := hopen
  have hsame : ((openRepo a.repoId : Prog ρ Repo Pack Ctx _).exec (world b a c) s).state = s := rfl
  rw [hopened, hsame]
  simp only [Program.bind_assoc]
  refine Program.Agree.bind _ ?_
  have hstaged : ((stagePack rest : Prog ρ Repo Pack Ctx _).exec (world b a c) s).state = s := rfl
  rw [hstaged]
  rcases ((stagePack rest : Prog ρ Repo Pack Ctx _).exec (world b a c) s).value with e | _ | staged
  · exact ⟨rfl, rfl⟩
  · exact authorize_agree hkinds repo ctx hne none none s
  simp only [Program.bind_assoc]
  refine Program.Agree.bind _ ?_
  generalize (ingestPack repo staged : Prog ρ Repo Pack Ctx _).exec (world b a c) s = o
  rcases o.value with e | _ | pack
  · exact ⟨rfl, rfl⟩
  · exact authorize_agree hkinds repo ctx hne none none o.state
  simp only [Program.bind_assoc]
  refine Program.Agree.bind _ ?_
  generalize (inspectIngested pack : Prog ρ Repo Pack Ctx _).exec (world b a c) o.state = o'
  rcases o'.value with e | packMeta
  · simp only [Program.bind_assoc]
    refine Program.Agree.bind _ ?_
    exact reject_agree updates _ _
  · exact authorize_agree hkinds repo ctx hne (some pack) (some packMeta) o'.state

/-- **The drivers are the same program on every push with a command**, once the repository
is open. -/
theorem drivers_agree {objects : σ → Ω} (hkinds : KindsFromObjects b objects)
    (limits : Receive.ProtocolLimits) (body : Bytes) (s : Session σ) (repo : Repo)
    (hopen : b.openRepo s.store a.repoId = .ok repo) (hcommands : commands limits body ≠ []) :
    let http := (recvPackPostCompleted limits a.repoId body).exec (world b a c) s
    let ssh := (servePush limits repo body).exec (world b a c) s
    http.state.store = ssh.state.store ∧ http.state.sent = ssh.state.sent ∧
      consultations http.trace = consultations ssh.trace := by
  rw [commands] at hcommands
  rcases hread : Receive.readReceiveRequest limits body with e | ⟨updates, rest⟩
  · simp [hread] at hcommands
  · rw [hread] at hcommands
    have hagree := push_agree (a := a) (c := c) hkinds hread hcommands hopen
    exact ⟨congrArg _ hagree.state_eq, congrArg _ hagree.state_eq, hagree.trace_eq⟩

/-- The creation of a branch in an empty SQL database, whose client takes ten bytes. -/
theorem drivers_agree_createRequest :
    let b : StorageBackend Sql.Db Unit Int PackMetadata :=
      sqlStorage (plainReading 1) noPacks "constraint" none
    let http := (recvPackPostCompleted {} () createRequest).exec (world b anyoneAccess ⟨some 10, none⟩) ⟨emptyDb, []⟩
    let ssh := (servePush {} 1 createRequest).exec (world b anyoneAccess ⟨some 10, none⟩) ⟨emptyDb, []⟩
    Sql.refMap http.state.store.refs 1 "refs/heads/main" = some (.fill 0x11) ∧ http.state.store = ssh.state.store ∧
      http.state.sent = ssh.state.sent ∧ consultations http.trace = consultations ssh.trace := by
  have hkinds : KindsFromObjects (sqlStorage (plainReading 1) noPacks "constraint" none :
      StorageBackend Sql.Db Unit Int PackMetadata) Sql.Db.objects :=
    ⟨⟨fun _ _ old new => PushKind.classify old new false, fun _ _ _ => rfl⟩, objects_sqlUpdateRefs "constraint" none⟩
  have hcommands : commands {} createRequest ≠ [] := by simp [commands, read_createRequest]
  refine ⟨?_, drivers_agree hkinds {} createRequest ⟨emptyDb, []⟩ 1 rfl hcommands⟩
  simp only [recvPackPostCompleted, recvPackPost, read_createRequest]
  decide +kernel

end Mizzle.Serve.Driver
