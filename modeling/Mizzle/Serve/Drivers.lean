import Mizzle.Lib.Program
import Mizzle.Proto.PktLine
import Mizzle.Proto.Receive
import Mizzle.Serve.PushRefs

/-!
# The two push drivers

`recv_pack_post` (HTTP) and `serve_receive_pack` (SSH) of `mizzle/src/serve.rs` as programs that
call a storage backend, an access value and the client's connection. Every call may be answered in
any way; a driver sees nothing of its environment but the answers. The HTTP driver hands the second
half of its work to a spawned task, which is a program of its own here.
-/

namespace Mizzle.Serve.Driver

open Lib Proto

/-! ### The interface -/

/-- What `run_comparison` puts in front of `authorize_push` and `post_receive`. -/
structure ComparisonArgs where
  pack : PackMetadata
  refs : List PushRef
  existingRefTips : List ObjectId
deriving DecidableEq

/-- The calls of a driver. -/
inductive Op (ρ Repo Pack Ctx : Type) where
  | initRepo (repoId : ρ)
  | openRepo (repoId : ρ)
  | listRefs (repo : Repo)
  | authorizePreliminary (refs : List PushRef)
  /-- `stage_pack` on the rest of the body. -/
  | stagePack (body : Bytes)
  | ingestPack (repo : Repo) (staged : Bytes)
  | inspectIngested (pack : Pack)
  | rollbackIngest (pack : Pack)
  | computePushKind (repo : Repo) (update : RefUpdate)
  | authorizePush (ctx : Ctx) (comparison : ComparisonArgs)
  | updateRefs (repo : Repo) (updates : List RefUpdate)
  | postReceive (comparison : ComparisonArgs)
  | write (packet : Packet)

variable {ρ Repo Pack Ctx : Type}

/-- The answers to each call; errors are given by their texts. -/
@[reducible] def Op.Res : Op ρ Repo Pack Ctx → Type
  | .initRepo _ => Except String Unit
  | .openRepo _ => Except String Repo
  | .listRefs _ => Except String RefsSnapshot
  | .authorizePreliminary _ => Except String Ctx
  | .stagePack _ => Except String (Option Bytes)
  | .ingestPack _ _ => Except String (Option Pack)
  | .inspectIngested _ => Except String PackMetadata
  | .rollbackIngest _ => Unit
  | .computePushKind _ _ => PushKind
  | .authorizePush _ _ => Except String Unit
  | .updateRefs _ _ => Except String Unit
  | .postReceive _ => Unit
  | .write _ => Except String Unit

abbrev Prog (ρ Repo Pack Ctx : Type) := Program (Op ρ Repo Pack Ctx) Op.Res

abbrev Trace (ρ Repo Pack Ctx : Type) := List (Program.Event (Op.Res : Op ρ Repo Pack Ctx → Type))

def initRepo (repoId : ρ) : Prog ρ Repo Pack Ctx (Except String Unit) :=
  .perform (Op.initRepo repoId)

def openRepo (repoId : ρ) : Prog ρ Repo Pack Ctx (Except String Repo) :=
  .perform (Op.openRepo repoId)

def listRefs (repo : Repo) : Prog ρ Repo Pack Ctx (Except String RefsSnapshot) :=
  .perform (Op.listRefs repo)

def authorizePreliminary (refs : List PushRef) : Prog ρ Repo Pack Ctx (Except String Ctx) :=
  .perform (Op.authorizePreliminary refs)

def stagePack (body : Bytes) : Prog ρ Repo Pack Ctx (Except String (Option Bytes)) :=
  .perform (Op.stagePack body)

def ingestPack (repo : Repo) (staged : Bytes) :
    Prog ρ Repo Pack Ctx (Except String (Option Pack)) :=
  .perform (Op.ingestPack repo staged)

def inspectIngested (pack : Pack) : Prog ρ Repo Pack Ctx (Except String PackMetadata) :=
  .perform (Op.inspectIngested pack)

def rollbackIngest (pack : Pack) : Prog ρ Repo Pack Ctx Unit := .perform (Op.rollbackIngest pack)

def computePushKind (repo : Repo) (update : RefUpdate) : Prog ρ Repo Pack Ctx PushKind :=
  .perform (Op.computePushKind repo update)

def authorizePush (ctx : Ctx) (comparison : ComparisonArgs) :
    Prog ρ Repo Pack Ctx (Except String Unit) :=
  .perform (Op.authorizePush ctx comparison)

def updateRefs (repo : Repo) (updates : List RefUpdate) :
    Prog ρ Repo Pack Ctx (Except String Unit) :=
  .perform (Op.updateRefs repo updates)

def postReceive (comparison : ComparisonArgs) : Prog ρ Repo Pack Ctx Unit :=
  .perform (Op.postReceive comparison)

def write (packet : Packet) : Prog ρ Repo Pack Ctx (Except String Unit) :=
  .perform (Op.write packet)

/-! ### Reports -/

/-- `text_to_write`. -/
def textToWrite (text : Bytes) : Prog ρ Repo Pack Ctx (Except String Unit) :=
  if Fits text then write (.line text) else pure (.error s!"Cannot encode more than 65516 bytes, got {text.length + 1}")

/-- Lines one after the other, up to the first error. -/
def writeLines : List Bytes → Prog ρ Repo Pack Ctx (Except String Unit)
  | [] => pure (.ok ())
  | text :: rest => do
    match ← textToWrite text with
    | .error e => return .error e
    | .ok () => writeLines rest

def writeFlushed (lines : List Bytes) : Prog ρ Repo Pack Ctx (Except String Unit) := do
  match ← writeLines lines with
  | .error e => return .error e
  | .ok () => write .flush

/-- `unpack ok`, the status lines, and a flush. -/
def writeReport (statuses : List Bytes) : Prog ρ Repo Pack Ctx (Except String Unit) :=
  writeFlushed (utf8 "unpack ok" :: statuses)

def okLine (u : RefUpdate) : Bytes := utf8 ("ok " ++ u.refname)

def ngLine (refname msg : String) : Bytes := utf8 ("ng " ++ refname ++ " " ++ msg)

/-- `update_refs_and_report` (`mizzle/src/receive.rs`). -/
def updateRefsAndReport (repo : Repo) (refUpdates : List RefUpdate) :
    Prog ρ Repo Pack Ctx (Except String Unit) := do
  match ← updateRefs repo refUpdates with
  | .error e => return .error ("updating refs: " ++ e)
  | .ok () => writeReport (refUpdates.map okLine)

/-! ### What both drivers ask the backend -/

/-- `build_push_refs_async`. -/
def buildPushRefsAsync (repo : Repo) : List RefUpdate → Prog ρ Repo Pack Ctx (List PushRef)
  | [] => pure []
  | u :: rest => do
    let kind ← computePushKind repo u
    let out ← buildPushRefsAsync repo rest
    return pushRef kind u :: out

/-- `existing_ref_tips`. -/
def existingRefTipsAsync (repo : Repo) (pushRefs : List PushRef) :
    Prog ρ Repo Pack Ctx (List ObjectId) := do
  let snapshot ← listRefs repo
  return existingRefTips snapshot pushRefs

/-- `rollback_ingest`, if there is a pack. -/
def rollbackWritten : Option Pack → Prog ρ Repo Pack Ctx Unit
  | none => pure ()
  | some pack => rollbackIngest pack

def emptyMeta : PackMetadata := ⟨[]⟩

inductive DriverError where
  | receive (error : Receive.ReceiveError)
  | other (message : String)
deriving DecidableEq

/-! ### The HTTP driver -/

/-- `GitResponse`, as `recv_pack_post` builds it. -/
inductive GitResponse where
  /-- Status 500, `text/plain`, with the error as its body (`res_try!`). -/
  | internalError (error : DriverError)
  /-- Status 200, `application/x-git-receive-pack-result`, streaming what the spawned task
  writes. -/
  | result
deriving DecidableEq

/-- `reject_response`: the response and the spawned task. -/
def rejectResponse (refUpdates : List RefUpdate) (msg : String) :
    GitResponse × Prog ρ Repo Pack Ctx Unit :=
  (.result, do
    let _ ← writeReport (refUpdates.map fun u => ngLine u.refname msg)
    return ())

/-- A response for which nothing is spawned. -/
def failure (error : DriverError) : GitResponse × Prog ρ Repo Pack Ctx Unit :=
  (.internalError error, pure ())

/-- The task that `recv_pack_post` spawns for a push without rejections. The kinds and oids are
copied out of `push_refs` and put together again for `post_receive`. -/
def postTask (repo : Repo) (refUpdates : List RefUpdate) (pushRefs : List PushRef)
    (packMeta : Option PackMetadata) (existing : List ObjectId) : Prog ρ Repo Pack Ctx Unit := do
  let ownedKinds := pushRefs.map fun pr => (pr.refname, pr.kind)
  let ownedOldNew := pushRefs.map fun pr => (pr.oldOid, pr.newOid)
  match ← updateRefsAndReport repo refUpdates with
  | .ok () =>
    let postRefs := ownedKinds.zipWith
      (fun (name, kind) (old, new) => (⟨name, kind, old, new⟩ : PushRef)) ownedOldNew
    postReceive ⟨packMeta.getD emptyMeta, postRefs, existing⟩
  | .error _ => return ()

/-- What `recv_pack_post` spawns: decided by the list of rejections, not by the verdict. -/
def spawnTask (repo : Repo) (refUpdates : List RefUpdate) (pushRefs : List PushRef)
    (packMeta : Option PackMetadata) (existing : List ObjectId)
    (rejected : List (String × String)) : Prog ρ Repo Pack Ctx Unit :=
  if !rejected.isEmpty then do
    let _ ← writeReport (rejected.map fun (refname, msg) => ngLine refname msg)
    return ()
  else postTask repo refUpdates pushRefs packMeta existing

/-- `recv_pack_post` from the classification of the commands on. -/
def authorizePost (repo : Repo) (pushCtx : Ctx) (refUpdates : List RefUpdate)
    (writtenPack : Option Pack) (packMeta : Option PackMetadata) :
    Prog ρ Repo Pack Ctx (GitResponse × Prog ρ Repo Pack Ctx Unit) := do
  let pushRefs ← buildPushRefsAsync repo refUpdates
  let existing ← existingRefTipsAsync repo pushRefs
  match ← authorizePush pushCtx ⟨packMeta.getD emptyMeta, pushRefs, existing⟩ with
  | .error msg =>
    rollbackWritten writtenPack
    let rejected := refUpdates.map fun u => (u.refname, msg)
    return (.result, spawnTask repo refUpdates pushRefs packMeta existing rejected)
  | .ok () => return (.result, spawnTask repo refUpdates pushRefs packMeta existing [])

/-- `recv_pack_post`. -/
def recvPackPost (limits : Receive.ProtocolLimits) (repoId : ρ) (body : Bytes) :
    Prog ρ Repo Pack Ctx (GitResponse × Prog ρ Repo Pack Ctx Unit) := do
  match Receive.readReceiveRequest limits body with
  | .error e => return failure (.receive e)
  | .ok (refUpdates, body) =>
    match ← authorizePreliminary (buildPushRefs Receive.preliminaryPushKind refUpdates) with
    | .error msg => return rejectResponse refUpdates msg
    | .ok pushCtx =>
      match ← openRepo repoId with
      | .error e => return failure (.other e)
      | .ok repo =>
        match ← stagePack body with
        | .error e => return failure (.other e)
        | .ok none => authorizePost repo pushCtx refUpdates none none
        | .ok (some staged) =>
          match ← ingestPack repo staged with
          | .error e => return failure (.other e)
          | .ok none => authorizePost repo pushCtx refUpdates none none
          | .ok (some pack) =>
            match ← inspectIngested pack with
            | .ok packMeta => authorizePost repo pushCtx refUpdates (some pack) (some packMeta)
            | .error e =>
              rollbackIngest pack
              return rejectResponse refUpdates ("pack inspection failed: " ++ e)

/-- The spawned task, once the response is returned. -/
def runTask (reply : GitResponse × Prog ρ Repo Pack Ctx Unit) :
    Prog ρ Repo Pack Ctx GitResponse := do
  reply.2
  return reply.1

/-- `recv_pack_post` with its spawned task run to completion. -/
def recvPackPostCompleted (limits : Receive.ProtocolLimits) (repoId : ρ) (body : Bytes) :
    Prog ρ Repo Pack Ctx GitResponse := do
  runTask (← recvPackPost limits repoId body)

/-! ### The SSH driver -/

/-- Lines of an error report, then the end of the session. -/
def rejectSession (refUpdates : List RefUpdate) (msg : String) :
    Prog ρ Repo Pack Ctx (Except DriverError Unit) := do
  match ← writeReport (refUpdates.map fun u => ngLine u.refname msg) with
  | .error e => return .error (.other e)
  | .ok () => return .ok ()

/-- `serve_receive_pack` from the classification of the commands on. -/
def authorizeSession (repo : Repo) (pushCtx : Ctx) (refUpdates : List RefUpdate)
    (writtenPack : Option Pack) (packMeta : Option PackMetadata) :
    Prog ρ Repo Pack Ctx (Except DriverError Unit) := do
  let pushRefs ← buildPushRefsAsync repo refUpdates
  let existing ← existingRefTipsAsync repo pushRefs
  match ← authorizePush pushCtx ⟨packMeta.getD emptyMeta, pushRefs, existing⟩ with
  | .error msg =>
    rollbackWritten writtenPack
    rejectSession refUpdates msg
  | .ok () =>
    match ← updateRefsAndReport repo refUpdates with
    | .error e => return .error (.other e)
    | .ok () =>
      let postRefs ← buildPushRefsAsync repo refUpdates
      postReceive ⟨packMeta.getD emptyMeta, postRefs, existing⟩
      return .ok ()

/-- `serve_receive_pack` from the request on. -/
def servePush (limits : Receive.ProtocolLimits) (repo : Repo) (body : Bytes) :
    Prog ρ Repo Pack Ctx (Except DriverError Unit) := do
  match Receive.readReceiveRequest limits body with
  | .error e => return .error (.receive e)
  | .ok (refUpdates, body) =>
    match ← authorizePreliminary (buildPushRefs Receive.preliminaryPushKind refUpdates) with
    | .error msg => rejectSession refUpdates msg
    | .ok pushCtx =>
      match ← stagePack body with
      | .error e => return .error (.other e)
      | .ok none => authorizeSession repo pushCtx refUpdates none none
      | .ok (some staged) =>
        match ← ingestPack repo staged with
        | .error e => return .error (.other e)
        | .ok none => authorizeSession repo pushCtx refUpdates none none
        | .ok (some pack) =>
          match ← inspectIngested pack with
          | .ok packMeta => authorizeSession repo pushCtx refUpdates (some pack) (some packMeta)
          | .error e =>
            rollbackIngest pack
            rejectSession refUpdates ("pack inspection failed: " ++ e)

/-- `RefsSnapshot::as_receive_pack`. -/
def asReceivePack (snapshot : RefsSnapshot) : List (ObjectId × String) :=
  (snapshot.refs.filter fun r => r.name.startsWith "refs/").map fun r => (r.oid, r.name)

def receivePackCaps : Bytes := utf8 "report-status delete-refs ofs-delta agent=mizzle/dev"

/-- The lines of `info_refs_receive_pack_task`: the first one carries the capabilities. -/
def infoRefsLines : List (ObjectId × String) → List Bytes
  | [] => [ObjectId.null.toHex ++ utf8 " capabilities^\x7b\x7d" ++ [0] ++ receivePackCaps]
  | (oid, name) :: rest =>
    (oid.toHex ++ [32] ++ utf8 name ++ [0] ++ receivePackCaps)
      :: rest.map fun (oid, name) => oid.toHex ++ [32] ++ utf8 name

/-- `info_refs_receive_pack_task`. -/
def infoRefsReceivePackTask (refs : List (ObjectId × String)) :
    Prog ρ Repo Pack Ctx (Except String Unit) :=
  writeFlushed (infoRefsLines refs)

/-- `serve_receive_pack`. -/
def serveReceivePack (limits : Receive.ProtocolLimits) (repoId : ρ) (autoInit : Bool)
    (body : Bytes) : Prog ρ Repo Pack Ctx (Except DriverError Unit) := do
  match ← (if autoInit then initRepo repoId else pure (.ok ())) with
  | .error e => return .error (.other e)
  | .ok () =>
    match ← openRepo repoId with
    | .error e => return .error (.other e)
    | .ok repo =>
      match ← listRefs repo with
      | .error e => return .error (.other e)
      | .ok snapshot =>
        match ← infoRefsReceivePackTask (asReceivePack snapshot) with
        | .error e => return .error (.other e)
        | .ok () => servePush limits repo body

end Mizzle.Serve.Driver
