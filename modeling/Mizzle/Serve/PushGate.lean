import Mizzle.Serve.DriverRuns

/-!
# The authorisation gate and the post-receive hook

Two promises of the push drivers about the order of their calls, for every environment: refs move
and `post_receive` runs only after the push was admitted (`docs`: `design/auth.md`, Failure model),
and `post_receive` runs once for every push whose refs were updated. The first fails over HTTP for a
refused push without commands, the second on both transports when the client does not take the whole
report.
-/

namespace Mizzle.Serve.Driver

open Lib Proto

variable {ρ Repo Pack Ctx σ : Type}

/-! ### The gate -/

/-- `authorize_push` returned `Err`. -/
def Refused (t : Trace ρ Repo Pack Ctx) : Prop :=
  ∃ ctx comparison msg, (⟨.authorizePush ctx comparison, .error msg⟩ : Program.Event Op.Res) ∈ t

def InspectionFailed (t : Trace ρ Repo Pack Ctx) : Prop :=
  ∃ pack error, (⟨.inspectIngested pack, .error error⟩ : Program.Event Op.Res) ∈ t

/-- `update_refs` returned `Ok`. -/
def Updated (t : Trace ρ Repo Pack Ctx) : Prop :=
  ∃ repo updates, (⟨.updateRefs repo updates, .ok ()⟩ : Program.Event Op.Res) ∈ t

/-- Both authorisations said yes and the pack, if any, could be inspected. -/
def Admitted (t : Trace ρ Repo Pack Ctx) : Prop :=
  (∃ refs ctx, (⟨.authorizePreliminary refs, .ok ctx⟩ : Program.Event Op.Res) ∈ t) ∧ ¬ InspectionFailed t ∧
    ∃ ctx comparison, (⟨.authorizePush ctx comparison, .ok ()⟩ : Program.Event Op.Res) ∈ t

/-- What must have happened before a call. -/
def Gate (seen : Trace ρ Repo Pack Ctx) : Program.Event (Op.Res : Op ρ Repo Pack Ctx → Type) → Prop
  | ⟨.updateRefs _ _, _⟩ => Admitted seen
  | ⟨.postReceive _, _⟩ => Admitted seen ∧ Updated seen
  | _ => True

def rollbacks (t : Trace ρ Repo Pack Ctx) : List Pack :=
  t.filterMap fun
    | ⟨.rollbackIngest pack, _⟩ => some pack
    | _ => none

/-- Refs move and the hook runs behind the gate only, and what was ingested for a push that failed
it is rolled back once. -/
structure Authorised (t : Trace ρ Repo Pack Ctx) : Prop where
  gate : EachAfter Gate [] t
  rollback : ∀ repo staged pack, (⟨.ingestPack repo staged, .ok (some pack)⟩ : Program.Event Op.Res) ∈ t →
    Refused t ∨ InspectionFailed t → rollbacks t = [pack]

variable {delivered : Prop} {t : Trace ρ Repo Pack Ctx} {refs : List PushRef} {pack : Option Pack}

theorem authorised_def : Authorised t ↔ EachAfter Gate [] t ∧
    ∀ repo staged pack, (⟨.ingestPack repo staged, .ok (some pack)⟩ : Program.Event Op.Res) ∈ t →
      Refused t ∨ InspectionFailed t → rollbacks t = [pack] :=
  ⟨fun h => ⟨h.gate, h.rollback⟩, fun h => ⟨h.1, h.2⟩⟩

theorem refused_calls (t : Trace ρ Repo Pack Ctx) : Refused (calls t) ↔ Refused t := by
  simp only [Refused]
  exact exists_congr fun _ => exists_congr fun _ => exists_congr fun _ => mem_calls rfl

theorem inspectionFailed_calls (t : Trace ρ Repo Pack Ctx) :
    InspectionFailed (calls t) ↔ InspectionFailed t := by
  simp only [InspectionFailed]
  exact exists_congr fun _ => exists_congr fun _ => mem_calls rfl

theorem updated_calls (t : Trace ρ Repo Pack Ctx) : Updated (calls t) ↔ Updated t := by
  simp only [Updated]
  exact exists_congr fun _ => exists_congr fun _ => mem_calls rfl

theorem admitted_calls (t : Trace ρ Repo Pack Ctx) : Admitted (calls t) ↔ Admitted t := by
  simp only [Admitted, inspectionFailed_calls]
  refine and_congr ?_ (and_congr_right fun _ => ?_)
  · exact exists_congr fun _ => exists_congr fun _ => mem_calls rfl
  · exact exists_congr fun _ => exists_congr fun _ => mem_calls rfl

theorem gate_calls (t : Trace ρ Repo Pack Ctx) (e : Program.Event Op.Res) :
    Gate (calls t) e ↔ Gate t e := by
  obtain ⟨op, answer⟩ := e
  cases op <;> simp only [Gate, admitted_calls, updated_calls]

theorem rollbacks_calls (t : Trace ρ Repo Pack Ctx) : rollbacks (calls t) = rollbacks t := by
  rw [rollbacks, rollbacks, calls, List.filterMap_filter]
  congr 1
  funext e
  obtain ⟨op, answer⟩ := e
  cases op <;> rfl

theorem authorised_calls (t : Trace ρ Repo Pack Ctx) : Authorised (calls t) ↔ Authorised t := by
  have hgate : EachAfter Gate [] (calls t) ↔ EachAfter Gate [] t :=
    eachAfter_filter (p := fun e => e.1.decisive) gate_calls (fun seen e he => by
      obtain ⟨op, answer⟩ := e
      cases op <;> trivial) [] t
  constructor
  · rintro ⟨hg, hr⟩
    refine ⟨hgate.mp hg, fun repo staged pack hmem hfail => ?_⟩
    rw [← rollbacks_calls]
    exact hr repo staged pack ((mem_calls rfl).mpr hmem)
      (hfail.imp (refused_calls t).mpr (inspectionFailed_calls t).mpr)
  · rintro ⟨hg, hr⟩
    refine ⟨hgate.mpr hg, fun repo staged pack hmem hfail => ?_⟩
    rw [rollbacks_calls]
    exact hr repo staged pack ((mem_calls rfl).mp hmem)
      (hfail.imp (refused_calls t).mp (inspectionFailed_calls t).mp)

theorem Reviewed.authorised_refused {reviewed : Trace ρ Repo Pack Ctx}
    (h : Reviewed refs reviewed pack) (ctx : Ctx) (comparison : ComparisonArgs) (msg : String) :
    Authorised (reviewed ++ ⟨.authorizePush ctx comparison, .error msg⟩ :: undo pack) := by
  cases h with
  | noBody | noPack => simp [authorised_def, Gate, undo]
  | inspected => simp +contextual [authorised_def, Gate, undo, rollbacks]

theorem Reviewed.authorised_accepted {reviewed carried : Trace ρ Repo Pack Ctx}
    (h : Reviewed refs reviewed pack) (ctx : Ctx) (comparison : ComparisonArgs)
    (hcarried : Carried delivered carried) :
    Authorised (reviewed ++ ⟨.authorizePush ctx comparison, .ok ()⟩ :: carried) := by
  cases h <;> cases hcarried <;> simp [authorised_def, Gate, Admitted, Updated, Refused, InspectionFailed]

theorem Reviewed.not_authorised_overruled {reviewed carried : Trace ρ Repo Pack Ctx}
    (h : Reviewed refs reviewed pack) (ctx : Ctx) (comparison : ComparisonArgs) (msg : String)
    (hcarried : Carried delivered carried) :
    ¬ Authorised (reviewed ++ ⟨.authorizePush ctx comparison, .error msg⟩ ::
      (undo pack ++ carried)) := by
  intro hauthorised
  have hgate := hauthorised.gate
  cases h <;> cases hcarried <;> simp [Gate, Admitted, undo] at hgate

theorem Course.authorised_unless_overruled {transport : Transport} {updates : List RefUpdate}
    (h : Course transport updates delivered t) :
    Authorised t ↔ transport = .ssh ∨ updates ≠ [] ∨ ¬ Refused t := by
  cases h with
  | unread | turnedAway | stopped | ingestFailed => simp [authorised_def, Gate, Refused]
  | inspectionFailed refs ctx repo staged pack error =>
    simp +contextual [authorised_def, Gate, Refused, rollbacks]
  | refused hreviewed ctx comparison msg hcommands =>
    refine iff_of_true (hreviewed.authorised_refused ctx comparison msg) ?_
    cases transport with
    | http => exact .inr (.inl (hcommands rfl))
    | ssh => exact .inl rfl
  | accepted hreviewed ctx comparison hcarried =>
    refine iff_of_true (hreviewed.authorised_accepted ctx comparison hcarried) (.inr (.inr ?_))
    cases hreviewed <;> cases hcarried <;> simp [Refused]
  | overruled hhttp hempty hreviewed ctx comparison msg hcarried =>
    refine iff_of_false (hreviewed.not_authorised_overruled ctx comparison msg hcarried) ?_
    rintro (hssh | hne | hrefused)
    · simp [hhttp] at hssh
    · exact hne hempty
    · exact hrefused ⟨ctx, comparison, msg, by simp⟩

/-- **No effect without authorisation.** Over SSH always; over HTTP unless the request has no
command and `authorize_push` refuses it. -/
theorem authorised_iff (world : σ → (op : Op ρ Repo Pack Ctx) → σ × op.Res) (s : σ)
    (limits : Receive.ProtocolLimits) (repoId : ρ) (autoInit : Bool) (body : Bytes) :
    Authorised ((serveReceivePack limits repoId autoInit body).exec world s).trace ∧
      (Authorised ((recvPackPostCompleted limits repoId body).exec world s).trace ↔
        commands limits body ≠ [] ∨ ¬ Refused ((recvPackPostCompleted limits repoId body).exec world s).trace) := by
  have hssh := (serveReceivePack_course (Program.exec_runs world _ s)).authorised_unless_overruled
    (t := calls ((serveReceivePack limits repoId autoInit body).exec world s).trace)
  have hhttp := (recvPackPostCompleted_course (Program.exec_runs world _ s)).authorised_unless_overruled
    (t := calls ((recvPackPostCompleted limits repoId body).exec world s).trace)
  rw [authorised_calls] at hssh
  rw [authorised_calls, refused_calls] at hhttp
  exact ⟨hssh.mpr (.inl rfl), by simpa using hhttp⟩

/-- An environment with a fixed verdict and no refs; its state is the number of packets that the
client still takes. -/
def fixedWorld (verdict : Except String Unit) : Nat → (op : Op Unit Unit Unit Unit) → Nat × op.Res
  | n, .initRepo _ => (n, .ok ())
  | n, .openRepo _ => (n, .ok ())
  | n, .listRefs _ => (n, .ok ⟨none, []⟩)
  | n, .authorizePreliminary _ => (n, .ok ())
  | n, .stagePack body => (n, .ok (if body = [] then none else some body))
  | n, .ingestPack _ _ => (n, .ok none)
  | n, .inspectIngested _ => (n, .ok emptyMeta)
  | n, .rollbackIngest _ => (n, ())
  | n, .computePushKind _ _ => (n, .create)
  | n, .authorizePush _ _ => (n, verdict)
  | n, .updateRefs _ _ => (n, .ok ())
  | n, .postReceive _ => (n, ())
  | 0, .write _ => (0, .error "broken pipe")
  | n + 1, .write _ => (n, .ok ())

def emptyRequest : Bytes := Packet.flush.encode

theorem read_emptyRequest : Receive.readReceiveRequest {} emptyRequest = .ok ([], []) := by
  decide +kernel

theorem trace_emptyRequest :
    ((recvPackPostCompleted {} () emptyRequest).exec (fixedWorld (.error "denied")) 2).trace =
      [⟨.authorizePreliminary [], .ok ()⟩, ⟨.openRepo (), .ok ()⟩, ⟨.stagePack [], .ok none⟩,
        ⟨.listRefs (), .ok ⟨none, []⟩⟩, ⟨.authorizePush () ⟨emptyMeta, [], []⟩, .error "denied"⟩,
        ⟨.updateRefs () [], .ok ()⟩, ⟨.write (.line (utf8 "unpack ok")), .ok ()⟩, ⟨.write .flush, .ok ()⟩,
        ⟨.postReceive ⟨emptyMeta, [], []⟩, ()⟩] := by
  simp only [recvPackPostCompleted, recvPackPost, read_emptyRequest]
  rfl

/-- Over HTTP a push without commands updates refs and runs the hook although `authorize_push`
refused it. -/
theorem not_authorised_emptyRequest :
    ¬ Authorised ((recvPackPostCompleted {} () emptyRequest).exec (fixedWorld (.error "denied"))
      2).trace := by
  rw [trace_emptyRequest]
  intro h
  have hgate := h.gate
  simp [Gate, Admitted] at hgate

/-! ### The hook -/

/-- The calls of `post_receive`. -/
def hooks (t : Trace ρ Repo Pack Ctx) : List ComparisonArgs :=
  t.filterMap fun
    | ⟨.postReceive comparison, _⟩ => some comparison
    | _ => none

/-- `post_receive` runs once for a push whose refs were updated. -/
def HookRun (t : Trace ρ Repo Pack Ctx) : Prop := Updated t → (hooks t).length = 1

theorem hooks_calls (t : Trace ρ Repo Pack Ctx) : hooks (calls t) = hooks t := by
  rw [hooks, hooks, calls, List.filterMap_filter]
  congr 1
  funext e
  obtain ⟨op, answer⟩ := e
  cases op <;> rfl

theorem Reviewed.updated_after {reviewed : Trace ρ Repo Pack Ctx} (h : Reviewed refs reviewed pack)
    (ctx : Ctx) (comparison : ComparisonArgs) (verdict : Except String Unit)
    (t : Trace ρ Repo Pack Ctx) :
    (Updated (reviewed ++ ⟨.authorizePush ctx comparison, verdict⟩ :: t) ↔ Updated t) ∧
      hooks (reviewed ++ ⟨.authorizePush ctx comparison, verdict⟩ :: t) = hooks t := by
  cases h <;> simp [Updated, hooks]

theorem updated_undo (pack : Option Pack) (t : Trace ρ Repo Pack Ctx) :
    (Updated (undo pack ++ t) ↔ Updated t) ∧ hooks (undo pack ++ t) = hooks t := by
  cases pack <;> simp [Updated, hooks, undo]

theorem Carried.hooks_length (h : Carried delivered t) (hupdated : Updated t) :
    (hooks t).length = 1 ↔ delivered := by
  cases h with
  | failed => simp [Updated] at hupdated
  | unreported repo updates hlost => simp [hooks, hlost]
  | completed repo updates comparison hdelivered => simp [hooks, hdelivered]

theorem Course.hooks_length {transport : Transport} {updates : List RefUpdate}
    (h : Course transport updates delivered t) (hupdated : Updated t) :
    (hooks t).length = 1 ↔ delivered := by
  cases h with
  | unread | turnedAway | stopped | ingestFailed | inspectionFailed => simp [Updated] at hupdated
  | @refused refs reviewed pack hreviewed ctx comparison msg _ =>
    rw [(hreviewed.updated_after ctx comparison _ _).1] at hupdated
    cases pack <;> simp [Updated, undo] at hupdated
  | accepted hreviewed ctx comparison hcarried =>
    rw [(hreviewed.updated_after ctx comparison _ _).1] at hupdated
    rw [(hreviewed.updated_after ctx comparison _ _).2]
    exact hcarried.hooks_length hupdated
  | overruled _ _ hreviewed ctx comparison msg hcarried =>
    rw [(hreviewed.updated_after ctx comparison _ _).1, (updated_undo _ _).1] at hupdated
    rw [(hreviewed.updated_after ctx comparison _ _).2, (updated_undo _ _).2]
    exact hcarried.hooks_length hupdated

def createMain : RefUpdate := ⟨.null, .fill 0x11, "refs/heads/main"⟩

/-- The body of a request with that command and no pack. -/
def createRequest : Bytes :=
  (Packet.line (createMain.oldOid.toHex ++ [32] ++ createMain.newOid.toHex ++ [32] ++ utf8 createMain.refname)).encode
    ++ Packet.flush.encode

theorem read_createRequest : Receive.readReceiveRequest {} createRequest = .ok ([createMain], []) := by
  decide +kernel

/-- The refs are updated and the hook is lost when the connection breaks within the report: over
HTTP after `unpack ok`, over SSH after the advertisement and `unpack ok`. -/
theorem not_hookRun_createRequest :
    ¬ HookRun ((recvPackPostCompleted {} () createRequest).exec (fixedWorld (.ok ())) 1).trace ∧
      ¬ HookRun ((serveReceivePack {} () false createRequest).exec (fixedWorld (.ok ())) 3).trace := by
  have hhttp : ((recvPackPostCompleted {} () createRequest).exec (fixedWorld (.ok ())) 1).trace =
      [⟨.authorizePreliminary [pushRef .create createMain], .ok ()⟩, ⟨.openRepo (), .ok ()⟩, ⟨.stagePack [], .ok none⟩,
        ⟨.computePushKind () createMain, .create⟩, ⟨.listRefs (), .ok ⟨none, []⟩⟩,
        ⟨.authorizePush () ⟨emptyMeta, [pushRef .create createMain], []⟩, .ok ()⟩,
        ⟨.updateRefs () [createMain], .ok ()⟩, ⟨.write (.line (utf8 "unpack ok")), .ok ()⟩,
        ⟨.write (.line (okLine createMain)), .error "broken pipe"⟩] := by
    simp only [recvPackPostCompleted, recvPackPost, read_createRequest]
    rfl
  have hssh : calls ((serveReceivePack {} () false createRequest).exec (fixedWorld (.ok ())) 3).trace =
      [⟨.authorizePreliminary [pushRef .create createMain], .ok ()⟩,
        ⟨.authorizePush () ⟨emptyMeta, [pushRef .create createMain], []⟩, .ok ()⟩,
        ⟨.updateRefs () [createMain], .ok ()⟩] := by
    simp only [serveReceivePack, servePush, read_createRequest]
    rfl
  constructor
  · rw [HookRun, hhttp]
    simp [Updated, hooks]
  · rw [HookRun, ← updated_calls, ← hooks_calls, hssh]
    simp [Updated, hooks]

/-- **The hook runs for every push whose refs were updated** exactly if the client takes the whole
report. -/
theorem hookRun_iff (world : σ → (op : Op ρ Repo Pack Ctx) → σ × op.Res) (s : σ)
    (limits : Receive.ProtocolLimits) (repoId : ρ) (autoInit : Bool) (body : Bytes) :
    (HookRun ((recvPackPostCompleted limits repoId body).exec world s).trace ↔
        (Updated ((recvPackPostCompleted limits repoId body).exec world s).trace →
          Delivered ((recvPackPostCompleted limits repoId body).exec world s).trace)) ∧
      (HookRun ((serveReceivePack limits repoId autoInit body).exec world s).trace ↔
        (Updated ((serveReceivePack limits repoId autoInit body).exec world s).trace →
          Delivered ((serveReceivePack limits repoId autoInit body).exec world s).trace)) := by
  constructor
  · refine forall_congr' fun hupdated => ?_
    rw [← hooks_calls]
    exact (recvPackPostCompleted_course (Program.exec_runs world _ s)).hooks_length ((updated_calls _).mpr hupdated)
  · refine forall_congr' fun hupdated => ?_
    rw [← hooks_calls]
    exact (serveReceivePack_course (Program.exec_runs world _ s)).hooks_length ((updated_calls _).mpr hupdated)

end Mizzle.Serve.Driver
