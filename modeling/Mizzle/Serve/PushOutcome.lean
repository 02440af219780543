import Mizzle.Serve.DriverWorld

/-!
# What a push leaves and what it reports

The outcome of both drivers for a request that was read, whose pack (if any) was ingested and
inspected, and whose client takes every byte: the stored state afterwards and the packets sent, as a
function of the authoriser's verdict and of the answer of `update_refs` (`drive_eq`).
-/

namespace Mizzle.Serve.Driver

open Lib Proto

variable {σ ρ Repo Pack Ctx : Type}

/-! ### Packets -/

def packets (t : Trace ρ Repo Pack Ctx) : List Packet :=
  t.filterMap fun
    | ⟨.write packet, _⟩ => some packet
    | _ => none

@[simp] theorem packets_append (t t' : Trace ρ Repo Pack Ctx) :
    packets (t ++ t') = packets t ++ packets t' :=
  List.filterMap_append ..

/-- The packets for lines written up to the first that does not fit, and whether all of them did. -/
def linePackets : List Bytes → List Packet × Bool
  | [] => ([], true)
  | text :: rest => if Fits text then (.line text :: (linePackets rest).1, (linePackets rest).2) else ([], false)

def reportPackets (statuses : List Bytes) : List Packet :=
  let written := linePackets (utf8 "unpack ok" :: statuses)
  if written.2 then written.1 ++ [.flush] else written.1

theorem linePackets_of_fits {lines : List Bytes} (h : ∀ l ∈ lines, Fits l) :
    linePackets lines = (lines.map .line, true) := by
  induction lines with
  | nil => rfl
  | cons text rest ih =>
    rw [linePackets, if_pos (h text List.mem_cons_self), ih fun l hl => h l (List.mem_cons_of_mem _ hl)]
    rfl

theorem flush_notMem_linePackets (lines : List Bytes) : Packet.flush ∉ (linePackets lines).1 := by
  induction lines with
  | nil => exact List.not_mem_nil
  | cons text rest ih =>
    rw [linePackets]
    split
    · simpa using ih
    · exact List.not_mem_nil

theorem linePackets_snd {lines : List Bytes} :
    (linePackets lines).2 = true ↔ ∀ l ∈ lines, Fits l := by
  induction lines with
  | nil => simp [linePackets]
  | cons text rest ih =>
    rw [linePackets]
    split
    · rename_i hfits
      simp [ih, hfits]
    · rename_i hlong
      simp [hlong]

theorem fits_unpackOk : Fits (utf8 "unpack ok") := by decide

theorem fits_report {statuses : List Bytes} :
    (linePackets (utf8 "unpack ok" :: statuses)).2 = true ↔ ∀ l ∈ statuses, Fits l := by
  rw [linePackets_snd, List.forall_mem_cons, and_iff_right fits_unpackOk]

theorem reportPackets_of_fits {statuses : List Bytes} (h : ∀ l ∈ statuses, Fits l) :
    reportPackets statuses = .line (utf8 "unpack ok") :: statuses.map .line ++ [.flush] := by
  have hall : ∀ l ∈ utf8 "unpack ok" :: statuses, Fits l := List.forall_mem_cons.mpr ⟨fits_unpackOk, h⟩
  simp only [reportPackets, linePackets_of_fits hall, if_true, List.map_cons]

theorem flush_notMem_reportPackets {statuses : List Bytes} (h : ¬ ∀ l ∈ statuses, Fits l) :
    Packet.flush ∉ reportPackets statuses := by
  rw [reportPackets, if_neg (fun hall => h (fits_report.mp hall))]
  exact flush_notMem_linePackets _

/-! ### Writing to a client that takes everything -/

/-- The transport when nothing goes wrong. -/
def Wire.open : Wire := ⟨none, none⟩

variable {b : StorageBackend σ ρ Repo Pack} {a : RepoAccess σ ρ Ctx}

theorem exec_writeLines (lines : List Bytes) (s : Session σ) :
    packets ((writeLines lines).exec (world b a .open) s).trace = (linePackets lines).1 ∧
      (((writeLines lines).exec (world b a .open) s).value = .ok () ↔ (linePackets lines).2 = true) := by
  induction lines generalizing s with
  | nil => exact ⟨rfl, iff_of_true rfl rfl⟩
  | cons text rest ih =>
    rw [writeLines, textToWrite, linePackets]
    split
    · obtain ⟨hpackets, hvalue⟩ := ih ⟨s.store, s.sent ++ (Packet.line text).encode⟩
      rw [write, Program.exec_perform_bind]
      exact ⟨congrArg (Packet.line text :: ·) hpackets, hvalue⟩
    · exact ⟨rfl, iff_of_false (by simp) Bool.false_ne_true⟩

theorem exec_writeReport (statuses : List Bytes) (s : Session σ) :
    packets ((writeReport statuses).exec (world b a .open) s).trace = reportPackets statuses ∧
      (((writeReport statuses).exec (world b a .open) s).value = .ok () ↔ ∀ l ∈ statuses, Fits l) := by
  obtain ⟨hpackets, hvalue⟩ := exec_writeLines (b := b) (a := a) (utf8 "unpack ok" :: statuses) s
  rw [writeReport, writeFlushed, Program.exec_bind, reportPackets, ← fits_report]
  generalize (writeLines (utf8 "unpack ok" :: statuses)).exec (world b a .open) s = o at hpackets hvalue ⊢
  rw [Program.Outcome.after_trace, packets_append, Program.Outcome.after_value, hpackets]
  rcases hresult : o.value with e | ⟨⟩
  · have hlong : ¬ (linePackets (utf8 "unpack ok" :: statuses)).2 = true := by simp [← hvalue, hresult]
    rw [if_neg hlong]
    exact ⟨List.append_nil _, iff_of_false (by simp) hlong⟩
  · have hall : (linePackets (utf8 "unpack ok" :: statuses)).2 = true := hvalue.mp hresult
    rw [if_pos hall]
    exact ⟨rfl, iff_of_true rfl hall⟩

/-! ### The verdict and the outcome -/

/-- The pack of a request: none, or ingested (into the state `s'`) and inspected. -/
inductive Ingested (b : StorageBackend σ ρ Repo Pack) (s : σ) (repo : Repo) :
    Bytes → σ → Option Pack → Option PackMetadata → Prop where
  | noBody : Ingested b s repo [] s none none
  | noPack {staged : Bytes} {s' : σ} (hne : staged ≠ []) (h : b.ingestPack s repo staged = (s', .ok none)) :
      Ingested b s repo staged s' none none
  | inspected {staged : Bytes} {s' : σ} {pack : Pack} {packMeta : PackMetadata} (hne : staged ≠ [])
      (h : b.ingestPack s repo staged = (s', .ok (some pack))) (hmeta : b.inspectIngested s' pack = .ok packMeta) :
      Ingested b s repo staged s' (some pack) (some packMeta)

inductive Verdict where
  /-- `authorize_preliminary` returned `Err`. -/
  | turnedAway (msg : String)
  /-- `authorize_push` returned `Err`. -/
  | refused (msg : String)
  | accepted
deriving DecidableEq

/-- What `authorize_push` is asked once the pack is in the store. -/
def comparisonAt (b : StorageBackend σ ρ Repo Pack) (s : σ) (repo : Repo) (updates : List RefUpdate)
    (packMeta : Option PackMetadata) : ComparisonArgs :=
  ⟨packMeta.getD emptyMeta, buildPushRefs (b.computePushKind s repo) updates,
    existingRefTips (b.listRefs s repo) (buildPushRefs (b.computePushKind s repo) updates)⟩

/-- The verdict of `authorize_push`. -/
def fullVerdict (b : StorageBackend σ ρ Repo Pack) (a : RepoAccess σ ρ Ctx) (s : σ) (repo : Repo)
    (updates : List RefUpdate) (packMeta : Option PackMetadata) (ctx : Ctx) : Verdict :=
  match a.authorizePush ctx (comparisonAt b s repo updates packMeta) s with
  | .error msg => .refused msg
  | .ok () => .accepted

/-- The authoriser's verdict on a request, `s` being the state after the ingest. -/
def verdict (b : StorageBackend σ ρ Repo Pack) (a : RepoAccess σ ρ Ctx) (s : σ) (repo : Repo)
    (updates : List RefUpdate) (packMeta : Option PackMetadata) : Verdict :=
  match a.authorizePreliminary (buildPushRefs Receive.preliminaryPushKind updates) with
  | .error msg => .turnedAway msg
  | .ok ctx => fullVerdict b a s repo updates packMeta ctx

/-- The message of the `ng` lines, if the driver writes them. -/
def Verdict.rejection (transport : Transport) (updates : List RefUpdate) : Verdict → Option String
  | .turnedAway msg => some msg
  | .refused msg => if transport = .http ∧ updates = [] then none else some msg
  | .accepted => none

/-- The state after the rollback that a refusal brings about. -/
def undone (b : StorageBackend σ ρ Repo Pack) (s : σ) : Option Pack → σ
  | none => s
  | some pack => b.rollbackIngest s pack

/-- The store that a verdict leaves to the rest of the driver; `s` is the one before the push and
`s'` the one after the ingest. -/
def Verdict.store (b : StorageBackend σ ρ Repo Pack) (s s' : σ) (pack : Option Pack) : Verdict → σ
  | .turnedAway _ => s
  | .refused _ => undone b s' pack
  | .accepted => s'

/-- What a driver leaves and sends: the `ng` lines, or the ref transaction and, if it succeeded, the
`ok` lines. -/
def conclude (b : StorageBackend σ ρ Repo Pack) (s : σ) (repo : Repo) (updates : List RefUpdate) :
    Option String → σ × List Packet
  | some msg => (s, reportPackets (updates.map fun u => ngLine u.refname msg))
  | none =>
    ((b.updateRefs s repo updates).1,
      match (b.updateRefs s repo updates).2 with
      | .ok () => reportPackets (updates.map okLine)
      | .error _ => [])

/-- The stored state and the packets that a run ends with. -/
def summary {α : Type} (o : Program.Outcome (Op.Res : Op ρ Repo Pack Ctx → Type) (Session σ) α) :
    σ × List Packet :=
  (o.state.store, packets o.trace)

theorem summary_bind {α β : Type} {p : Prog ρ Repo Pack Ctx α} {f : α → Prog ρ Repo Pack Ctx β}
    {w : Wire} {s : Session σ} (hsilent : packets (p.exec (world b a w) s).trace = []) :
    summary ((p >>= f).exec (world b a w) s) =
      summary ((f (p.exec (world b a w) s).value).exec (world b a w) (p.exec (world b a w) s).state) := by
  rw [Program.exec_bind, summary, Program.Outcome.after_trace, packets_append, hsilent]
  rfl

theorem summary_perform_bind {β : Type} {op : Op ρ Repo Pack Ctx}
    (f : op.Res → Prog ρ Repo Pack Ctx β) {w : Wire} (s : Session σ) (h : op.isWrite = false) :
    summary ((Program.perform op >>= f).exec (world b a w) s) =
      summary ((f (world b a w s op).2).exec (world b a w) (world b a w s op).1) := by
  cases op <;> first | rfl | simp [Op.isWrite] at h

/-! ### Evaluation -/

theorem packets_buildPushRefsAsync (repo : Repo) (updates : List RefUpdate) (s : Session σ) :
    packets ((buildPushRefsAsync repo updates).exec (world b a .open) s).trace = [] := by
  induction updates with
  | nil => rfl
  | cons u rest ih =>
    rw [buildPushRefsAsync, computePushKind, Program.exec_perform_bind, Program.exec_bind,
      Program.Outcome.after_trace, Program.Outcome.after_trace, packets_append, packets_append]
    exact congrArg (· ++ []) ih

theorem summary_writeReport {α : Type} (statuses : List Bytes)
    (next : Except String Unit → Prog ρ Repo Pack Ctx α) (s : Session σ)
    (hnext : ∀ r s', summary ((next r).exec (world b a .open) s') = (s'.store, [])) :
    summary ((writeReport statuses >>= next).exec (world b a .open) s) =
      (s.store, reportPackets statuses) := by
  have hstore := exec_writeFlushed_store (b := b) (a := a) (c := .open) (utf8 "unpack ok" :: statuses) s
  have hrest := hnext ((writeReport statuses).exec (world b a .open) s).value
    ((writeReport statuses).exec (world b a .open) s).state
  rw [Program.exec_bind]
  refine Prod.ext ((congrArg Prod.fst hrest).trans hstore) ?_
  have hsilent : packets _ = [] := congrArg Prod.snd hrest
  simp only [summary, Program.Outcome.after_trace, packets_append, hsilent, (exec_writeReport statuses s).1,
    List.append_nil]

theorem summary_rejectSession (repo : Repo) (updates : List RefUpdate) (msg : String)
    (s : Session σ) :
    summary ((rejectSession updates msg).exec (world b a .open) s) =
      conclude b s.store repo updates (some msg) := by
  refine summary_writeReport _ _ s fun r s' => ?_
  rcases r with e | ⟨⟩
  · rfl
  · rfl

theorem summary_rejectResponse (repo : Repo) (updates : List RefUpdate) (msg : String)
    (s : Session σ) :
    summary ((runTask (rejectResponse updates msg)).exec (world b a .open) s)
      = conclude b s.store repo updates (some msg) := by
  rw [runTask, rejectResponse, Program.bind_assoc]
  exact summary_writeReport _ _ s fun r s' => rfl

theorem summary_updateRefsAndReport {α : Type} (repo : Repo) (updates : List RefUpdate)
    (next : Except String Unit → Prog ρ Repo Pack Ctx α) (s : Session σ)
    (hnext : ∀ r s', summary ((next r).exec (world b a .open) s') = (s'.store, [])) :
    summary ((updateRefsAndReport repo updates >>= next).exec (world b a .open) s)
      = conclude b s.store repo updates none := by
  have hstore := exec_updateRefsAndReport_store (b := b) (a := a) (c := .open) repo updates s
  have hpackets : packets ((updateRefsAndReport repo updates).exec (world b a .open) s).trace
      = (conclude b s.store repo updates none).2 := by
    rw [updateRefsAndReport, updateRefs, Program.exec_perform_bind, conclude]
    rcases hresult : (b.updateRefs s.store repo updates).2 with e | ⟨⟩
    · simp only [world, hresult]
      rfl
    · simp only [world, hresult]
      exact (exec_writeReport (b := b) (a := a) (updates.map okLine) _).1
  rw [Program.exec_bind]
  have hrest := hnext ((updateRefsAndReport repo updates).exec (world b a .open) s).value
    ((updateRefsAndReport repo updates).exec (world b a .open) s).state
  refine Prod.ext ((congrArg Prod.fst hrest).trans hstore) ?_
  have hsilent : packets _ = [] := congrArg Prod.snd hrest
  simp only [summary, Program.Outcome.after_trace, packets_append, hpackets, hsilent, List.append_nil]

theorem summary_authorizeSession (repo : Repo) (ctx : Ctx) (updates : List RefUpdate)
    (pack : Option Pack) (packMeta : Option PackMetadata) (s₀ : σ) (s : Session σ) :
    summary ((authorizeSession repo ctx updates pack packMeta).exec (world b a .open) s) =
      conclude b ((fullVerdict b a s.store repo updates packMeta ctx).store b s₀ s.store pack) repo updates
        ((fullVerdict b a s.store repo updates packMeta ctx).rejection .ssh updates) := by
  obtain ⟨hstate, hvalue⟩ := exec_buildPushRefsAsync (b := b) (a := a) (c := .open) repo updates s
  rw [authorizeSession, summary_bind (packets_buildPushRefsAsync ..), hstate, hvalue]
  rw [existingRefTipsAsync, Program.bind_assoc, listRefs, summary_perform_bind _ _ rfl, Program.pure_eq,
    Program.ret_bind, authorizePush, summary_perform_bind _ _ rfl, fullVerdict, comparisonAt]
  simp only [world]
  rcases a.authorizePush ctx _ s.store with msg | ⟨⟩
  · cases pack with
    | none => exact summary_rejectSession repo updates msg s
    | some pack =>
      rw [rollbackWritten, rollbackIngest, summary_perform_bind _ _ rfl]
      exact summary_rejectSession repo updates msg _
  · refine summary_updateRefsAndReport repo updates _ s fun r s' => ?_
    rcases r with e | ⟨⟩
    · rfl
    · rw [summary_bind (packets_buildPushRefsAsync ..), postReceive, summary_perform_bind _ _ rfl]
      exact congrArg (fun s : Session σ => (s.store, [])) (exec_buildPushRefsAsync ..).1

theorem summary_postTask (repo : Repo) (updates : List RefUpdate) (pushRefs : List PushRef)
    (packMeta : Option PackMetadata) (existing : List ObjectId) (s : Session σ) :
    summary ((runTask (.result, postTask repo updates pushRefs packMeta existing)).exec
      (world b a .open) s)
      = conclude b s.store repo updates none := by
  rw [runTask, postTask, Program.bind_assoc]
  refine summary_updateRefsAndReport repo updates _ s fun r s' => ?_
  rcases r with e | ⟨⟩
  · rfl
  · rfl

theorem summary_authorizePost (repo : Repo) (ctx : Ctx) (updates : List RefUpdate)
    (pack : Option Pack) (packMeta : Option PackMetadata) (s₀ : σ) (s : Session σ) :
    summary ((authorizePost repo ctx updates pack packMeta >>= runTask).exec (world b a .open) s) =
      conclude b ((fullVerdict b a s.store repo updates packMeta ctx).store b s₀ s.store pack) repo updates
        ((fullVerdict b a s.store repo updates packMeta ctx).rejection .http updates) := by
  obtain ⟨hstate, hvalue⟩ := exec_buildPushRefsAsync (b := b) (a := a) (c := .open) repo updates s
  rw [authorizePost, Program.bind_assoc, summary_bind (packets_buildPushRefsAsync ..), hstate, hvalue]
  rw [existingRefTipsAsync, Program.bind_assoc, Program.bind_assoc, listRefs, summary_perform_bind _ _ rfl,
    Program.pure_eq, Program.ret_bind, Program.bind_assoc, authorizePush, summary_perform_bind _ _ rfl, fullVerdict,
    comparisonAt]
  simp only [world]
  rcases a.authorizePush ctx _ s.store with msg | ⟨⟩
  · dsimp only [Verdict.store, Verdict.rejection]
    by_cases hempty : updates = []
    · subst hempty
      rw [if_pos ⟨rfl, rfl⟩]
      cases pack with
      | none => exact summary_postTask repo [] _ packMeta _ s
      | some pack =>
        rw [rollbackWritten, rollbackIngest, Program.bind_assoc, summary_perform_bind _ _ rfl]
        exact summary_postTask repo [] _ packMeta _ _
    · rw [if_neg fun h => hempty h.2]
      simp only [spawnTask_refused hempty]
      cases pack with
      | none => exact summary_rejectResponse repo updates msg s
      | some pack =>
        rw [rollbackWritten, rollbackIngest, Program.bind_assoc, summary_perform_bind _ _ rfl]
        exact summary_rejectResponse repo updates msg _
  · exact summary_postTask repo updates _ packMeta _ s

/-- A push over one of the transports, from the request on: the stored state afterwards and the
packets sent. -/
def drive (b : StorageBackend σ ρ Repo Pack) (a : RepoAccess σ ρ Ctx) (transport : Transport)
    (limits : Receive.ProtocolLimits) (repo : Repo) (body : Bytes) (s : σ) : σ × List Packet :=
  match transport with
  | .http => summary ((recvPackPostCompleted limits a.repoId body).exec (world b a .open) ⟨s, []⟩)
  | .ssh => summary ((servePush limits repo body).exec (world b a .open) ⟨s, []⟩)

variable {limits : Receive.ProtocolLimits} {repo : Repo} {body rest : Bytes} {updates : List RefUpdate} {s s' : σ}
  {pack : Option Pack} {packMeta : Option PackMetadata}

theorem drive_ssh (hread : Receive.readReceiveRequest limits body = .ok (updates, rest))
    (hingested : Ingested b s repo rest s' pack packMeta) :
    drive b a .ssh limits repo body s =
      conclude b ((verdict b a s' repo updates packMeta).store b s s' pack) repo updates
        ((verdict b a s' repo updates packMeta).rejection .ssh updates) := by
  rw [drive, servePush, hread]
  dsimp only
  rw [authorizePreliminary, summary_perform_bind _ _ rfl, verdict]
  simp only [world]
  rcases a.authorizePreliminary _ with msg | ctx
  · exact summary_rejectSession repo updates msg _
  dsimp only
  rw [stagePack, summary_perform_bind _ _ rfl]
  cases hingested with
  | noBody => exact summary_authorizeSession repo ctx updates none none s ⟨s, []⟩
  | noPack hne hingest =>
    simp only [world, Wire.open, stage, if_neg hne]
    rw [ingestPack, summary_perform_bind _ _ rfl]
    simp only [world, hingest]
    exact summary_authorizeSession repo ctx updates none none s ⟨s', []⟩
  | @inspected _ _ pack packMeta hne hingest hmeta =>
    simp only [world, Wire.open, stage, if_neg hne]
    rw [ingestPack, summary_perform_bind _ _ rfl]
    simp only [world, hingest]
    rw [inspectIngested, summary_perform_bind _ _ rfl]
    simp only [world, hmeta]
    exact summary_authorizeSession repo ctx updates (some pack) (some packMeta) s ⟨s', []⟩

theorem drive_http (hread : Receive.readReceiveRequest limits body = .ok (updates, rest))
    (hopen : b.openRepo s a.repoId = .ok repo)
    (hingested : Ingested b s repo rest s' pack packMeta) :
    drive b a .http limits repo body s =
      conclude b ((verdict b a s' repo updates packMeta).store b s s' pack) repo updates
        ((verdict b a s' repo updates packMeta).rejection .http updates) := by
  rw [drive, recvPackPostCompleted, recvPackPost, hread]
  dsimp only
  rw [Program.bind_assoc, authorizePreliminary, summary_perform_bind _ _ rfl, verdict]
  simp only [world]
  rcases a.authorizePreliminary _ with msg | ctx
  · exact summary_rejectResponse repo updates msg _
  dsimp only
  rw [Program.bind_assoc, openRepo, summary_perform_bind _ _ rfl]
  simp only [world, hopen]
  rw [Program.bind_assoc, stagePack, summary_perform_bind _ _ rfl]
  cases hingested with
  | noBody => exact summary_authorizePost repo ctx updates none none s ⟨s, []⟩
  | noPack hne hingest =>
    simp only [world, Wire.open, stage, if_neg hne]
    rw [Program.bind_assoc, ingestPack, summary_perform_bind _ _ rfl]
    simp only [world, hingest]
    exact summary_authorizePost repo ctx updates none none s ⟨s', []⟩
  | @inspected _ _ pack packMeta hne hingest hmeta =>
    simp only [world, Wire.open, stage, if_neg hne]
    rw [Program.bind_assoc, ingestPack, summary_perform_bind _ _ rfl]
    simp only [world, hingest]
    rw [Program.bind_assoc, inspectIngested, summary_perform_bind _ _ rfl]
    simp only [world, hmeta]
    exact summary_authorizePost repo ctx updates (some pack) (some packMeta) s ⟨s', []⟩

/-- **The outcome of a push**, over either transport. -/
theorem drive_eq (transport : Transport)
    (hread : Receive.readReceiveRequest limits body = .ok (updates, rest))
    (hopen : b.openRepo s a.repoId = .ok repo)
    (hingested : Ingested b s repo rest s' pack packMeta) :
    drive b a transport limits repo body s =
      conclude b ((verdict b a s' repo updates packMeta).store b s s' pack) repo updates
        ((verdict b a s' repo updates packMeta).rejection transport updates) := by
  cases transport with
  | http => exact drive_http hread hopen hingested
  | ssh => exact drive_ssh hread hingested

end Mizzle.Serve.Driver
