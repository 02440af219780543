import Mizzle.Serve.Drivers

/-!
# What a run of a push driver can come to

The calls of a run that decide about a push or carry it out, in their order, have one of a few
shapes (`Course`), the same for both drivers but for one: over HTTP, a push without commands that
the full authorisation refused goes on to the ref transaction. What the authorisation gate and the
post-receive hook guarantee follows from the shapes.
-/

namespace Mizzle.Serve.Driver

open Lib Proto

variable {ρ Repo Pack Ctx σ : Type}

variable {t : Trace ρ Repo Pack Ctx} {updates : List RefUpdate} {repo : Repo}
  {packMeta : Option PackMetadata} {pack : Option Pack} {r : Unit} {ctx : Ctx}
  {op : Op ρ Repo Pack Ctx} {limits : Receive.ProtocolLimits}

/-! ### The decisive calls -/

/-- The calls that decide about a push or carry it out. -/
def Op.decisive : Op ρ Repo Pack Ctx → Bool
  | .authorizePreliminary _ => true
  | .ingestPack _ _ => true
  | .inspectIngested _ => true
  | .rollbackIngest _ => true
  | .authorizePush _ _ => true
  | .updateRefs _ _ => true
  | .postReceive _ => true
  | _ => false

def calls (t : Trace ρ Repo Pack Ctx) : Trace ρ Repo Pack Ctx := t.filter fun e => e.1.decisive

@[simp] theorem calls_nil : calls ([] : Trace ρ Repo Pack Ctx) = [] := rfl

@[simp] theorem calls_append (t t' : Trace ρ Repo Pack Ctx) :
    calls (t ++ t') = calls t ++ calls t' :=
  List.filter_append ..

theorem calls_cons_of_pos (answer : op.Res) (t : Trace ρ Repo Pack Ctx) (h : op.decisive = true) :
    calls (⟨op, answer⟩ :: t) = ⟨op, answer⟩ :: calls t := List.filter_cons_of_pos h

theorem calls_cons_of_neg (answer : op.Res) (t : Trace ρ Repo Pack Ctx) (h : op.decisive = false) :
    calls (⟨op, answer⟩ :: t) = calls t :=
  List.filter_cons_of_neg (by simp [h])

theorem mem_calls {answer : op.Res} (h : op.decisive = true) :
    (⟨op, answer⟩ : Program.Event _) ∈ calls t ↔ (⟨op, answer⟩ : Program.Event _) ∈ t := by
  simp [calls, h]

/-! ### The connection -/

def Op.isWrite : Op ρ Repo Pack Ctx → Bool
  | .write _ => true
  | _ => false

/-- No write to the client failed. -/
def Delivered (t : Trace ρ Repo Pack Ctx) : Prop :=
  ∀ packet error, (⟨.write packet, .error error⟩ : Program.Event Op.Res) ∉ t

@[simp] theorem delivered_nil : Delivered ([] : Trace ρ Repo Pack Ctx) :=
  fun _ _ => List.not_mem_nil

@[simp] theorem delivered_append {t t' : Trace ρ Repo Pack Ctx} :
    Delivered (t ++ t') ↔ Delivered t ∧ Delivered t' := by
  simp only [Delivered, List.mem_append, not_or, forall_and]

theorem delivered_cons {answer : op.Res} (h : op.isWrite = false) :
    Delivered (⟨op, answer⟩ :: t) ↔ Delivered t := by
  refine forall₂_congr fun packet error => not_congr ?_
  rw [List.mem_cons, or_iff_right]
  rintro heq
  obtain rfl := congrArg Sigma.fst heq
  simp [Op.isWrite] at h

/-- A stretch of a run without decisive calls and without a failed write. -/
structure Quiet (t : Trace ρ Repo Pack Ctx) : Prop where
  calls_eq : calls t = []
  delivered : Delivered t

theorem Quiet.nil : Quiet ([] : Trace ρ Repo Pack Ctx) := ⟨rfl, delivered_nil⟩

theorem Quiet.cons {op : Op ρ Repo Pack Ctx} {answer : op.Res} {t : Trace ρ Repo Pack Ctx}
    (h : Quiet t) (hdecisive : op.decisive = false) (hwrite : op.isWrite = false) :
    Quiet (⟨op, answer⟩ :: t) :=
  ⟨by rw [calls_cons_of_neg answer t hdecisive, h.calls_eq], (delivered_cons hwrite).mpr h.delivered⟩

variable {refs : List PushRef} {response : GitResponse} {body : Bytes}

theorem buildPushRefsAsync_quiet (h : (buildPushRefsAsync repo updates).Runs t refs) : Quiet t := by
  induction updates generalizing t refs with
  | nil =>
    obtain ⟨rfl, -⟩ := Program.runs_ret_iff.mp h
    exact .nil
  | cons u rest ih =>
    obtain ⟨kind, t₁, rfl, hrest⟩ := Program.runs_perform_bind_iff.mp h
    obtain ⟨t₂, out, t₃, rfl, hout, hret⟩ := Program.runs_bind_iff.mp hrest
    obtain ⟨rfl, -⟩ := Program.runs_ret_iff.mp hret
    rw [List.append_nil]
    exact (ih hout).cons rfl rfl

theorem existingRefTipsAsync_quiet {pushRefs : List PushRef} {tips : List ObjectId}
    (h : (existingRefTipsAsync repo pushRefs).Runs t tips) : Quiet t := by
  obtain ⟨snapshot, t₁, rfl, hret⟩ := Program.runs_perform_bind_iff.mp h
  obtain ⟨rfl, -⟩ := Program.runs_ret_iff.mp hret
  exact Quiet.nil.cons rfl rfl

theorem writeLines_runs {lines : List Bytes} {r : Except String Unit}
    (h : (writeLines lines).Runs t r) :
    calls t = [] ∧ (r = .ok () → Delivered t) ∧
      ((∀ l ∈ lines, Fits l) → Delivered t → r = .ok ()) := by
  induction lines generalizing t with
  | nil =>
    obtain ⟨rfl, rfl⟩ := Program.runs_ret_iff.mp h
    exact ⟨rfl, fun _ => delivered_nil, fun _ _ => rfl⟩
  | cons text rest ih =>
    obtain ⟨t₁, answer, t₂, rfl, hwrite, hrest⟩ := Program.runs_bind_iff.mp h
    unfold textToWrite at hwrite
    split at hwrite
    · obtain ⟨answer, t₃, rfl, hret⟩ := Program.runs_call_iff.mp hwrite
      obtain ⟨rfl, rfl⟩ := Program.runs_ret_iff.mp hret
      rcases answer with e | ⟨⟩
      · obtain ⟨rfl, rfl⟩ := Program.runs_ret_iff.mp hrest
        exact ⟨rfl, nofun, fun _ hdelivered => absurd List.mem_cons_self (hdelivered _ e)⟩
      · obtain ⟨hcalls, hok, hdelivered⟩ := ih hrest
        have hhead : Delivered [(⟨.write (.line text),
            .ok ()⟩ : Program.Event (Op.Res : Op ρ Repo Pack Ctx → Type))] := by
          intro packet e hmem
          cases List.mem_singleton.mp hmem
        refine ⟨hcalls, fun hr => delivered_append.mpr ⟨hhead, hok hr⟩, fun hfits hd => ?_⟩
        exact hdelivered (fun l hl => hfits l (List.mem_cons_of_mem _ hl)) (delivered_append.mp hd).2
    · rename_i hlong
      obtain ⟨rfl, rfl⟩ := Program.runs_ret_iff.mp hwrite
      obtain ⟨rfl, rfl⟩ := Program.runs_ret_iff.mp hrest
      exact ⟨rfl, nofun, fun hfits => absurd (hfits text List.mem_cons_self) hlong⟩

theorem writeFlushed_runs {lines : List Bytes} {r : Except String Unit}
    (h : (writeFlushed lines).Runs t r) :
    calls t = [] ∧ (r = .ok () → Delivered t) ∧
      ((∀ l ∈ lines, Fits l) → Delivered t → r = .ok ()) := by
  obtain ⟨t₁, answer, t₂, rfl, hlines, hrest⟩ := Program.runs_bind_iff.mp h
  obtain ⟨hcalls, hok, hdelivered⟩ := writeLines_runs hlines
  rcases answer with e | ⟨⟩
  · obtain ⟨rfl, rfl⟩ := Program.runs_ret_iff.mp hrest
    refine ⟨by simpa using hcalls, nofun, fun hfits hd => ?_⟩
    exact absurd (hdelivered hfits (delivered_append.mp hd).1) nofun
  · obtain ⟨answer, t₃, rfl, hret⟩ := Program.runs_call_iff.mp hrest
    obtain ⟨rfl, rfl⟩ := Program.runs_ret_iff.mp hret
    rw [calls_append, hcalls]
    rcases r with e | ⟨⟩
    · exact ⟨rfl, nofun, fun _ hd => absurd List.mem_cons_self ((delivered_append.mp hd).2 _ e)⟩
    · refine ⟨rfl, fun _ => delivered_append.mpr ⟨hok rfl, ?_⟩, fun _ _ => rfl⟩
      intro packet e hmem
      cases List.mem_singleton.mp hmem

/-! ### The shapes of a run -/

/-- The calls of a push that got as far as the full authorisation, and the pack it ingested. -/
inductive Reviewed (refs : List PushRef) : Trace ρ Repo Pack Ctx → Option Pack → Prop where
  | noBody (ctx : Ctx) : Reviewed refs [⟨.authorizePreliminary refs, .ok ctx⟩] none
  | noPack (ctx : Ctx) (repo : Repo) (staged : Bytes) :
      Reviewed refs [⟨.authorizePreliminary refs, .ok ctx⟩, ⟨.ingestPack repo staged, .ok none⟩] none
  | inspected (ctx : Ctx) (repo : Repo) (staged : Bytes) (pack : Pack) (packMeta : PackMetadata) :
      Reviewed refs [⟨.authorizePreliminary refs, .ok ctx⟩, ⟨.ingestPack repo staged, .ok (some pack)⟩,
        ⟨.inspectIngested pack, .ok packMeta⟩] (some pack)

/-- The calls with which a push is carried out, given whether every write was taken. -/
inductive Carried (delivered : Prop) : Trace ρ Repo Pack Ctx → Prop where
  | failed (repo : Repo) (updates : List RefUpdate) (error : String) :
      Carried delivered [⟨.updateRefs repo updates, .error error⟩]
  | unreported (repo : Repo) (updates : List RefUpdate) (hlost : ¬ delivered) :
      Carried delivered [⟨.updateRefs repo updates, .ok ()⟩]
  | completed (repo : Repo) (updates : List RefUpdate) (comparison : ComparisonArgs) (hdelivered : delivered) :
      Carried delivered [⟨.updateRefs repo updates, .ok ()⟩, ⟨.postReceive comparison, ()⟩]

/-- The rollback of an ingested pack. -/
def undo : Option Pack → Trace ρ Repo Pack Ctx
  | none => []
  | some pack => [⟨.rollbackIngest pack, ()⟩]

inductive Transport where
  | http
  | ssh
deriving DecidableEq

/-- The decisive calls of a run for a request with these commands. -/
inductive Course (transport : Transport) (updates : List RefUpdate) (delivered : Prop) :
    Trace ρ Repo Pack Ctx → Prop where
  | unread : Course transport updates delivered []
  | turnedAway (refs : List PushRef) (msg : String) :
      Course transport updates delivered [⟨.authorizePreliminary refs, .error msg⟩]
  | stopped (refs : List PushRef) (ctx : Ctx) :
      Course transport updates delivered [⟨.authorizePreliminary refs, .ok ctx⟩]
  | ingestFailed (refs : List PushRef) (ctx : Ctx) (repo : Repo) (staged : Bytes) (error : String) :
      Course transport updates delivered
        [⟨.authorizePreliminary refs, .ok ctx⟩, ⟨.ingestPack repo staged, .error error⟩]
  | inspectionFailed (refs : List PushRef) (ctx : Ctx) (repo : Repo) (staged : Bytes) (pack : Pack) (error : String) :
      Course transport updates delivered
        [⟨.authorizePreliminary refs, .ok ctx⟩, ⟨.ingestPack repo staged, .ok (some pack)⟩,
          ⟨.inspectIngested pack, .error error⟩, ⟨.rollbackIngest pack, ()⟩]
  | refused {refs : List PushRef} {reviewed : Trace ρ Repo Pack Ctx} {pack : Option Pack}
      (hreviewed : Reviewed refs reviewed pack) (ctx : Ctx) (comparison : ComparisonArgs) (msg : String)
      (hcommands : transport = .http → updates ≠ []) :
      Course transport updates delivered (reviewed ++ ⟨.authorizePush ctx comparison, .error msg⟩ :: undo pack)
  | accepted {refs : List PushRef} {reviewed carried : Trace ρ Repo Pack Ctx} {pack : Option Pack}
      (hreviewed : Reviewed refs reviewed pack) (ctx : Ctx) (comparison : ComparisonArgs)
      (hcarried : Carried delivered carried) :
      Course transport updates delivered (reviewed ++ ⟨.authorizePush ctx comparison, .ok ()⟩ :: carried)
  /-- `rejected` is empty, although the push was refused. -/
  | overruled {refs : List PushRef} {reviewed carried : Trace ρ Repo Pack Ctx} {pack : Option Pack}
      (hhttp : transport = .http) (hempty : updates = []) (hreviewed : Reviewed refs reviewed pack)
      (ctx : Ctx) (comparison : ComparisonArgs) (msg : String) (hcarried : Carried delivered carried) :
      Course transport updates delivered
        (reviewed ++ ⟨.authorizePush ctx comparison, .error msg⟩ :: (undo pack ++ carried))

/-! ### Every run takes one of the courses -/

theorem rollbackWritten_runs (h : (rollbackWritten pack).Runs t r) : t = undo pack := by
  cases pack with
  | none => exact (Program.runs_ret_iff.mp h).1
  | some pack =>
    obtain ⟨answer, t', rfl, hret⟩ := Program.runs_call_iff.mp h
    obtain ⟨rfl, -⟩ := Program.runs_ret_iff.mp hret
    rfl

theorem calls_undo (pack : Option Pack) :
    calls (undo pack : Trace ρ Repo Pack Ctx) = undo pack := by
  cases pack <;> rfl

theorem delivered_undo (pack : Option Pack) : Delivered (undo pack : Trace ρ Repo Pack Ctx) := by
  cases pack with
  | none => exact delivered_nil
  | some pack => exact (delivered_cons rfl).mpr delivered_nil

theorem rejectSession_runs {msg : String} {r : Except DriverError Unit}
    (h : (rejectSession updates msg).Runs t r) : calls t = [] := by
  obtain ⟨t₁, answer, t₂, rfl, hwrite, hrest⟩ := Program.runs_bind_iff.mp h
  have hcalls := (writeFlushed_runs hwrite).1
  rcases answer with e | ⟨⟩
  all_goals
    obtain ⟨rfl, -⟩ := Program.runs_ret_iff.mp hrest
    simpa using hcalls

theorem rejectResponse_runs {msg : String} (h : (rejectResponse updates msg).2.Runs t r) :
    calls t = [] := by
  obtain ⟨t₁, answer, t₂, rfl, hwrite, hrest⟩ := Program.runs_bind_iff.mp h
  obtain ⟨rfl, -⟩ := Program.runs_ret_iff.mp hrest
  simpa using (writeFlushed_runs hwrite).1

theorem updateRefsAndReport_runs {r : Except String Unit} (hfits : ∀ u ∈ updates, Fits (okLine u))
    (h : (updateRefsAndReport repo updates).Runs t r) :
    (∃ error, calls t = [⟨.updateRefs repo updates, .error error⟩] ∧ r ≠ .ok ()) ∨
      (calls t = [⟨.updateRefs repo updates, .ok ()⟩] ∧ (r = .ok () ↔ Delivered t)) := by
  obtain ⟨answer, t₁, rfl, hrest⟩ := Program.runs_perform_bind_iff.mp h
  rcases answer with e | ⟨⟩
  · obtain ⟨rfl, rfl⟩ := Program.runs_ret_iff.mp hrest
    exact .inl ⟨e, rfl, nofun⟩
  · obtain ⟨hcalls, hok, hdelivered⟩ := writeFlushed_runs hrest
    refine .inr ⟨by rw [calls_cons_of_pos _ _ rfl, hcalls], ?_⟩
    rw [delivered_cons rfl]
    refine ⟨hok, hdelivered ?_⟩
    rintro l (_ | ⟨_, hl⟩)
    · decide
    · obtain ⟨u, hu, rfl⟩ := List.mem_map.mp hl
      exact hfits u hu

theorem carried_of_runs {t t' : Trace ρ Repo Pack Ctx} {result : Except String Unit}
    (hfits : ∀ u ∈ updates, Fits (okLine u))
    (hupdate : (updateRefsAndReport repo updates).Runs t result)
    (hfailed : ∀ e, result = .error e → t' = [])
    (hreported : result = .ok () → ∃ quiet comparison, Quiet quiet ∧ t' = quiet ++
      [⟨.postReceive comparison, ()⟩]) : Carried (Delivered (t ++ t')) (calls (t ++ t')) := by
  rcases result with e | ⟨⟩
  · rw [hfailed e rfl, List.append_nil]
    rcases updateRefsAndReport_runs hfits hupdate with ⟨error, hcalls, -⟩ | ⟨hcalls, hresult⟩
    · rw [hcalls]
      exact .failed ..
    · rw [hcalls]
      exact .unreported _ _ (fun hd => nomatch hresult.mpr hd)
  · obtain ⟨quiet, comparison, hquiet, rfl⟩ := hreported rfl
    rcases updateRefsAndReport_runs hfits hupdate with ⟨error, -, hresult⟩ | ⟨hcalls, hresult⟩
    · exact absurd rfl hresult
    · rw [calls_append, calls_append, hcalls, hquiet.calls_eq]
      refine .completed _ _ _ (delivered_append.mpr ⟨hresult.mp rfl, delivered_append.mpr ⟨hquiet.delivered, ?_⟩⟩)
      exact (delivered_cons rfl).mpr delivered_nil

theorem authorize_runs {β : Type}
    {k : List PushRef → List ObjectId → Except String Unit → Prog ρ Repo Pack Ctx β} {r : β}
    (h : (buildPushRefsAsync repo updates >>= fun pushRefs => existingRefTipsAsync repo pushRefs >>=
      fun existing => authorizePush ctx ⟨packMeta.getD emptyMeta, pushRefs, existing⟩ >>=
        k pushRefs existing).Runs t r) :
    ∃ pushRefs existing verdict t', (k pushRefs existing verdict).Runs t' r ∧
      (Delivered t ↔ Delivered t') ∧
      calls t = ⟨.authorizePush ctx ⟨packMeta.getD emptyMeta, pushRefs, existing⟩, verdict⟩ :: calls t' := by
  obtain ⟨t₁, pushRefs, _, rfl, hbuild, hafter⟩ := Program.runs_bind_iff.mp h
  obtain ⟨t₂, existing, _, rfl, hexisting, hauthorize⟩ := Program.runs_bind_iff.mp hafter
  obtain ⟨verdict, t₃, rfl, hrest⟩ := Program.runs_perform_bind_iff.mp hauthorize
  have hkinds := buildPushRefsAsync_quiet hbuild
  have htips := existingRefTipsAsync_quiet hexisting
  refine ⟨pushRefs, existing, verdict, t₃, hrest, ?_, ?_⟩
  · simp only [delivered_append, hkinds.delivered, htips.delivered, true_and]
    exact delivered_cons rfl
  · rw [calls_append, calls_append, hkinds.calls_eq, htips.calls_eq, calls_cons_of_pos _ _ rfl]
    rfl

theorem authorizeSession_runs {r : Except DriverError Unit} (hfits : ∀ u ∈ updates, Fits (okLine u))
    (h : (authorizeSession repo ctx updates pack packMeta).Runs t r) : ∃ comparison,
      (∃ msg, calls t = ⟨.authorizePush ctx comparison, .error msg⟩ :: undo pack) ∨
      (∃ carried, calls t = ⟨.authorizePush ctx comparison, .ok ()⟩ :: carried ∧ Carried (Delivered t) carried) := by
  obtain ⟨pushRefs, existing, verdict, t₁, hrest, hdelivered, hcalls⟩ := authorize_runs h
  rw [hcalls, hdelivered]
  refine ⟨⟨packMeta.getD emptyMeta, pushRefs, existing⟩, ?_⟩
  rcases verdict with msg | ⟨⟩
  · obtain ⟨t₂, _, t₃, rfl, hundo, hreport⟩ := Program.runs_bind_iff.mp hrest
    obtain rfl := rollbackWritten_runs hundo
    exact .inl ⟨msg, by rw [calls_append, calls_undo, rejectSession_runs hreport, List.append_nil]⟩
  · obtain ⟨t₂, result, t₃, rfl, hupdate, hpost⟩ := Program.runs_bind_iff.mp hrest
    refine .inr ⟨_, rfl, carried_of_runs hfits hupdate ?_ ?_⟩
    · rintro e rfl
      exact (Program.runs_ret_iff.mp hpost).1
    · rintro rfl
      obtain ⟨t₄, postRefs, _, rfl, hrebuild, hhook⟩ := Program.runs_bind_iff.mp hpost
      obtain ⟨_, t₅, rfl, hret⟩ := Program.runs_perform_bind_iff.mp hhook
      obtain ⟨rfl, -⟩ := Program.runs_ret_iff.mp hret
      exact ⟨t₄, _, buildPushRefsAsync_quiet hrebuild, rfl⟩

theorem postTask_runs {pushRefs : List PushRef} {existing : List ObjectId}
    (hfits : ∀ u ∈ updates, Fits (okLine u))
    (h : (postTask repo updates pushRefs packMeta existing).Runs t r) :
    Carried (Delivered t) (calls t) := by
  obtain ⟨t₁, result, t₂, rfl, hupdate, hpost⟩ := Program.runs_bind_iff.mp h
  refine carried_of_runs hfits hupdate ?_ ?_
  · rintro e rfl
    exact (Program.runs_ret_iff.mp hpost).1
  · rintro rfl
    obtain ⟨_, t₃, rfl, hret⟩ := Program.runs_call_iff.mp hpost
    obtain ⟨rfl, -⟩ := Program.runs_ret_iff.mp hret
    exact ⟨[], _, .nil, rfl⟩

theorem authorizeSession_course {reviewed t : Trace ρ Repo Pack Ctx} {r : Except DriverError Unit}
    (hreviewed : Reviewed refs reviewed pack) (hfits : ∀ u ∈ updates, Fits (okLine u))
    (h : (authorizeSession repo ctx updates pack packMeta).Runs t r) :
    Course .ssh updates (Delivered t) (reviewed ++ calls t) := by
  obtain ⟨comparison, ⟨msg, hcalls⟩ | ⟨carried, hcalls, hcarried⟩⟩ := authorizeSession_runs hfits h
  · exact hcalls ▸ .refused hreviewed ctx comparison msg nofun
  · exact hcalls ▸ .accepted hreviewed ctx comparison hcarried

theorem spawnTask_refused (hne : updates ≠ []) (repo : Repo) (pushRefs : List PushRef)
    (packMeta : Option PackMetadata) (existing : List ObjectId) (msg : String) :
    (spawnTask repo updates pushRefs packMeta existing (updates.map fun u => (u.refname, msg)) :
      Prog ρ Repo Pack Ctx Unit) = (rejectResponse updates msg).2 := by
  have hrejected : (updates.map fun u => (u.refname, msg)).isEmpty = false := by simpa using hne
  rw [spawnTask, hrejected, rejectResponse, List.map_map]
  rfl

theorem authorizePost_runs {t t' : Trace ρ Repo Pack Ctx} {task : Prog ρ Repo Pack Ctx Unit}
    (hfits : ∀ u ∈ updates, Fits (okLine u))
    (h : (authorizePost repo ctx updates pack packMeta).Runs t (response, task))
    (htask : task.Runs t' r) : ∃ comparison,
      (∃ msg, calls (t ++ t') = ⟨.authorizePush ctx comparison, .error msg⟩ :: undo pack ∧ updates ≠ []) ∨
      (∃ msg carried, calls (t ++ t') = ⟨.authorizePush ctx comparison, .error msg⟩ :: (undo pack ++ carried) ∧
        updates = [] ∧ Carried (Delivered (t ++ t')) carried) ∨
      (∃ carried, calls (t ++ t') = ⟨.authorizePush ctx comparison, .ok ()⟩ :: carried ∧
        Carried (Delivered (t ++ t')) carried) := by
  obtain ⟨pushRefs, existing, verdict, t₁, hrest, hdelivered, hcalls⟩ := authorize_runs h
  rw [calls_append, delivered_append, hcalls, hdelivered]
  refine ⟨⟨packMeta.getD emptyMeta, pushRefs, existing⟩, ?_⟩
  rcases verdict with msg | ⟨⟩
  · obtain ⟨t₂, _, t₃, rfl, hundo, hresponse⟩ := Program.runs_bind_iff.mp hrest
    obtain rfl := rollbackWritten_runs hundo
    obtain ⟨rfl, hpair⟩ := Program.runs_ret_iff.mp hresponse
    obtain ⟨rfl, rfl⟩ := Prod.mk.inj hpair
    simp only [calls_undo, List.append_nil, List.cons_append, delivered_undo, true_and]
    by_cases hne : updates = []
    · subst hne
      exact .inr (.inl ⟨msg, _, rfl, rfl, postTask_runs hfits htask⟩)
    · rw [spawnTask_refused hne] at htask
      exact .inl ⟨msg, by rw [rejectResponse_runs htask, List.append_nil], hne⟩
  · obtain ⟨rfl, hpair⟩ := Program.runs_ret_iff.mp hrest
    obtain ⟨rfl, rfl⟩ := Prod.mk.inj hpair
    simp only [calls_nil, List.cons_append, List.nil_append, delivered_nil, true_and]
    exact .inr (.inr ⟨_, rfl, postTask_runs hfits htask⟩)

theorem authorizePost_course {reviewed t t' : Trace ρ Repo Pack Ctx}
    {task : Prog ρ Repo Pack Ctx Unit} (hreviewed : Reviewed refs reviewed pack)
    (hfits : ∀ u ∈ updates, Fits (okLine u))
    (h : (authorizePost repo ctx updates pack packMeta).Runs t (response, task))
    (htask : task.Runs t' r) :
    Course .http updates (Delivered (t ++ t')) (reviewed ++ calls (t ++ t')) := by
  obtain ⟨comparison, ⟨msg, hcalls, hne⟩ | ⟨msg, carried, hcalls, hempty, hcarried⟩ | ⟨carried, hcalls, hcarried⟩⟩ :=
    authorizePost_runs hfits h htask
  · exact hcalls ▸ .refused hreviewed ctx comparison msg (fun _ => hne)
  · exact hcalls ▸ .overruled rfl hempty hreviewed ctx comparison msg hcarried
  · exact hcalls ▸ .accepted hreviewed ctx comparison hcarried

theorem length_okLine (u : RefUpdate) : (okLine u).length = (utf8 u.refname).length + 3 := by
  rw [okLine, utf8_append, List.length_append, Nat.add_comm]
  rfl

theorem fits_okLine {body rest : Bytes}
    (h : Receive.readReceiveRequest limits body = .ok (updates, rest)) :
    ∀ u ∈ updates, Fits (okLine u) := by
  intro u hu
  have hlength := Receive.readReceiveRequest_refname_length h u hu
  rw [Fits, length_okLine, maxDataLen]
  omega

/-- The commands of a request; none if it cannot be read. -/
def commands (limits : Receive.ProtocolLimits) (body : Bytes) : List RefUpdate :=
  match Receive.readReceiveRequest limits body with
  | .ok (updates, _) => updates
  | .error _ => []

theorem servePush_course {r : Except DriverError Unit} (h : (servePush limits repo body).Runs t r) :
    Course .ssh (commands limits body) (Delivered t) (calls t) := by
  rw [servePush] at h
  rw [commands]
  rcases hread : Receive.readReceiveRequest limits body with e | ⟨updates, rest⟩
  · rw [hread] at h
    obtain ⟨rfl, -⟩ := Program.runs_ret_iff.mp h
    exact .unread
  rw [hread] at h
  have hfits := fits_okLine hread
  obtain ⟨admission, t₁, rfl, hadmitted⟩ := Program.runs_perform_bind_iff.mp h
  rw [calls_cons_of_pos _ _ rfl, delivered_cons rfl]
  rcases admission with msg | ctx
  · rw [rejectSession_runs hadmitted]
    exact .turnedAway ..
  obtain ⟨staging, t₂, rfl, hstaged⟩ := Program.runs_perform_bind_iff.mp hadmitted
  rw [calls_cons_of_neg _ _ rfl, delivered_cons rfl]
  rcases staging with e | _ | staged
  · obtain ⟨rfl, -⟩ := Program.runs_ret_iff.mp hstaged
    exact .stopped ..
  · exact authorizeSession_course (.noBody ctx) hfits hstaged
  obtain ⟨ingestion, t₃, rfl, hingested⟩ := Program.runs_perform_bind_iff.mp hstaged
  rw [calls_cons_of_pos _ _ rfl, delivered_cons rfl]
  rcases ingestion with e | _ | pack
  · obtain ⟨rfl, -⟩ := Program.runs_ret_iff.mp hingested
    exact .ingestFailed ..
  · exact authorizeSession_course (.noPack ctx repo staged) hfits hingested
  obtain ⟨inspection, t₄, rfl, hinspected⟩ := Program.runs_perform_bind_iff.mp hingested
  rw [calls_cons_of_pos _ _ rfl, delivered_cons rfl]
  rcases inspection with e | packMeta
  · obtain ⟨_, t₅, rfl, hreport⟩ := Program.runs_perform_bind_iff.mp hinspected
    rw [calls_cons_of_pos _ _ rfl, rejectSession_runs hreport]
    exact .inspectionFailed ..
  · exact authorizeSession_course (.inspected ctx repo staged pack packMeta) hfits hinspected

/-- **Every session takes one of the courses.** -/
theorem serveReceivePack_course {repoId : ρ} {autoInit : Bool} {r : Except DriverError Unit}
    (h : (serveReceivePack limits repoId autoInit body).Runs t r) :
    Course .ssh (commands limits body) (Delivered t) (calls t) := by
  obtain ⟨t₁, initialised, t₂, rfl, hinit, hopen⟩ := Program.runs_bind_iff.mp h
  have hinitQuiet : Quiet t₁ := by
    split at hinit
    · obtain ⟨answer, t', rfl, hret⟩ := Program.runs_call_iff.mp hinit
      obtain ⟨rfl, -⟩ := Program.runs_ret_iff.mp hret
      exact Quiet.nil.cons rfl rfl
    · obtain ⟨rfl, -⟩ := Program.runs_ret_iff.mp hinit
      exact .nil
  simp only [calls_append, hinitQuiet.calls_eq, List.nil_append, delivered_append, hinitQuiet.delivered, true_and]
  rcases initialised with e | ⟨⟩
  · obtain ⟨rfl, -⟩ := Program.runs_ret_iff.mp hopen
    exact .unread
  obtain ⟨opened, t₃, rfl, hlist⟩ := Program.runs_perform_bind_iff.mp hopen
  rw [calls_cons_of_neg _ _ rfl, delivered_cons rfl]
  rcases opened with e | repo
  · obtain ⟨rfl, -⟩ := Program.runs_ret_iff.mp hlist
    exact .unread
  obtain ⟨listed, t₄, rfl, hadvertise⟩ := Program.runs_perform_bind_iff.mp hlist
  rw [calls_cons_of_neg _ _ rfl, delivered_cons rfl]
  rcases listed with e | snapshot
  · obtain ⟨rfl, -⟩ := Program.runs_ret_iff.mp hadvertise
    exact .unread
  obtain ⟨t₅, advertised, t₆, rfl, hwrite, hpush⟩ := Program.runs_bind_iff.mp hadvertise
  obtain ⟨hcalls, hok, -⟩ := writeFlushed_runs hwrite
  rw [calls_append, hcalls, List.nil_append, delivered_append]
  rcases advertised with e | ⟨⟩
  · obtain ⟨rfl, -⟩ := Program.runs_ret_iff.mp hpush
    exact .unread
  · rw [and_iff_right (hok rfl)]
    exact servePush_course hpush

/-- **Every HTTP push, its spawned task included, takes one of the courses.** -/
theorem recvPackPostCompleted_course {repoId : ρ}
    (h : (recvPackPostCompleted limits repoId body).Runs t response) :
    Course .http (commands limits body) (Delivered t) (calls t) := by
  obtain ⟨t₀, ⟨reply, task⟩, t', rfl, hdriver, hspawned⟩ := Program.runs_bind_iff.mp h
  obtain ⟨t'', _, t''', rfl, htask, hret⟩ := Program.runs_bind_iff.mp hspawned
  obtain ⟨rfl, -⟩ := Program.runs_ret_iff.mp hret
  rw [List.append_nil]
  rw [recvPackPost] at hdriver
  rw [commands]
  rcases hread : Receive.readReceiveRequest limits body with e | ⟨updates, rest⟩
  · rw [hread] at hdriver
    obtain ⟨rfl, hpair⟩ := Program.runs_ret_iff.mp hdriver
    obtain ⟨-, rfl⟩ := Prod.mk.inj hpair
    obtain ⟨rfl, -⟩ := Program.runs_ret_iff.mp htask
    exact .unread
  rw [hread] at hdriver
  have hfits := fits_okLine hread
  obtain ⟨admission, t₁, rfl, hadmitted⟩ := Program.runs_perform_bind_iff.mp hdriver
  rw [List.cons_append, calls_cons_of_pos _ _ rfl, delivered_cons rfl]
  rcases admission with msg | ctx
  · obtain ⟨rfl, hpair⟩ := Program.runs_ret_iff.mp hadmitted
    obtain ⟨-, rfl⟩ := Prod.mk.inj hpair
    rw [List.nil_append, rejectResponse_runs htask]
    exact .turnedAway ..
  obtain ⟨opened, t₂, rfl, hopened⟩ := Program.runs_perform_bind_iff.mp hadmitted
  rw [List.cons_append, calls_cons_of_neg _ _ rfl, delivered_cons rfl]
  rcases opened with e | repo
  · obtain ⟨rfl, hpair⟩ := Program.runs_ret_iff.mp hopened
    obtain ⟨-, rfl⟩ := Prod.mk.inj hpair
    obtain ⟨rfl, -⟩ := Program.runs_ret_iff.mp htask
    exact .stopped ..
  obtain ⟨staging, t₃, rfl, hstaged⟩ := Program.runs_perform_bind_iff.mp hopened
  rw [List.cons_append, calls_cons_of_neg _ _ rfl, delivered_cons rfl]
  rcases staging with e | _ | staged
  · obtain ⟨rfl, hpair⟩ := Program.runs_ret_iff.mp hstaged
    obtain ⟨-, rfl⟩ := Prod.mk.inj hpair
    obtain ⟨rfl, -⟩ := Program.runs_ret_iff.mp htask
    exact .stopped ..
  · exact authorizePost_course (.noBody ctx) hfits hstaged htask
  obtain ⟨ingestion, t₄, rfl, hingested⟩ := Program.runs_perform_bind_iff.mp hstaged
  rw [List.cons_append, calls_cons_of_pos _ _ rfl, delivered_cons rfl]
  rcases ingestion with e | _ | pack
  · obtain ⟨rfl, hpair⟩ := Program.runs_ret_iff.mp hingested
    obtain ⟨-, rfl⟩ := Prod.mk.inj hpair
    obtain ⟨rfl, -⟩ := Program.runs_ret_iff.mp htask
    exact .ingestFailed ..
  · exact authorizePost_course (.noPack ctx repo staged) hfits hingested htask
  obtain ⟨inspection, t₅, rfl, hinspected⟩ := Program.runs_perform_bind_iff.mp hingested
  rw [List.cons_append, calls_cons_of_pos _ _ rfl, delivered_cons rfl]
  rcases inspection with e | packMeta
  · obtain ⟨_, t₆, rfl, hreport⟩ := Program.runs_perform_bind_iff.mp hinspected
    obtain ⟨rfl, hpair⟩ := Program.runs_ret_iff.mp hreport
    obtain ⟨-, rfl⟩ := Prod.mk.inj hpair
    rw [List.cons_append, calls_cons_of_pos _ _ rfl, List.nil_append, rejectResponse_runs htask]
    exact .inspectionFailed ..
  · exact authorizePost_course (.inspected ctx repo staged pack packMeta) hfits hinspected htask

end Mizzle.Serve.Driver
