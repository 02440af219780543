import Mizzle.Serve.PushGate
import Mizzle.Serve.PushOutcome
import Mizzle.Serve.StorageBackends

/-!
# Whether the report of a push is true

The report that a push should get: `unpack ok`, one line for every command in turn, and a flush,
where the line of a command is `ok` exactly if its ref has the command's new value when the request
is over.

The databases meet this exactly for the requests of `Reportable`. A refused transaction is not
reported at all: neither driver translates an error of `update_refs` into `ng` lines. Two commands
for one ref are both reported as `ok`, whichever wins. A rejected command is reported as `ng` also
where its ref has the new value already, and an `ng` line that is too long for a packet ends the
report early.
-/

namespace Mizzle.Serve.Driver

open Lib Proto

variable {σ ρ Repo Pack Ctx : Type}

/-- A status line says what became of its command. -/
def StatusOf (refs : String → Option ObjectId) (u : RefUpdate) (line : Bytes) : Prop :=
  if refs u.refname = RefUpdate.value u.newOid then line = okLine u else ∃ reason, line = ngLine u.refname reason

/-- The packets are a complete report, and it says what `refs` hold. -/
def Truthful (refs : String → Option ObjectId) (updates : List RefUpdate) (sent : List Packet) :
    Prop :=
  ∃ statuses, sent = .line (utf8 "unpack ok") :: statuses.map .line ++ [.flush] ∧
    List.Forall₂ (StatusOf refs) updates statuses

/-- The condition for a true report, for the message of the `ng` lines (if the push is rejected) and
the refs that the push finds. -/
def Reportable (Accepts : Repo → RefMap Repo → List RefUpdate → Prop) (repo : Repo)
    (refs : RefMap Repo) (updates : List RefUpdate) : Option String → Prop
  | some msg => ∀ u ∈ updates, refs repo u.refname ≠ RefUpdate.value u.newOid ∧ Fits (ngLine u.refname msg)
  | none => Accepts repo refs updates ∧ ∀ u ∈ updates, ∀ v ∈ updates, u.refname = v.refname → u.newOid = v.newOid

theorem ngLine_ne_okLine (refname msg : String) (u : RefUpdate) :
    ngLine refname msg ≠ okLine u := by
  have hng : utf8 "ng " = [110, 103, 32] := by decide
  have hok : utf8 "ok " = [111, 107, 32] := by decide
  rw [ngLine, okLine, utf8_append, utf8_append, utf8_append, utf8_append, hng, hok]
  simp

theorem statusOf_okLine {refs : String → Option ObjectId} {u : RefUpdate} :
    StatusOf refs u (okLine u) ↔ refs u.refname = RefUpdate.value u.newOid := by
  rw [StatusOf]
  split
  · rename_i hvalue
    exact iff_of_true rfl hvalue
  · rename_i hvalue
    exact iff_of_false (fun ⟨reason, h⟩ => ngLine_ne_okLine u.refname reason u h.symm) hvalue

theorem statusOf_ngLine {refs : String → Option ObjectId} {u : RefUpdate} {msg : String} :
    StatusOf refs u (ngLine u.refname msg) ↔ refs u.refname ≠ RefUpdate.value u.newOid := by
  rw [StatusOf]
  split
  · rename_i hvalue
    exact iff_of_false (ngLine_ne_okLine u.refname msg u) (not_not_intro hvalue)
  · rename_i hvalue
    exact iff_of_true ⟨msg, rfl⟩ hvalue

variable {updates : List RefUpdate}

theorem truthful_reportPackets {refs : String → Option ObjectId} (line : RefUpdate → Bytes) :
    Truthful refs updates (reportPackets (updates.map line)) ↔
      ∀ u ∈ updates, StatusOf refs u (line u) ∧ Fits (line u) := by
  have hforall : List.Forall₂ (StatusOf refs) updates (updates.map line) ↔ ∀ u ∈ updates, StatusOf refs u (line u) := by
    rw [List.forall₂_map_right_iff, List.forall₂_same]
  constructor
  · rintro ⟨statuses, hsent, hstatuses⟩
    have hfits : ∀ l ∈ updates.map line, Fits l := by
      by_contra hlong
      refine flush_notMem_reportPackets hlong ?_
      rw [hsent]
      simp
    rw [reportPackets_of_fits hfits] at hsent
    have hlines : (updates.map line).map Packet.line = statuses.map Packet.line := by simpa using hsent
    have hsame : updates.map line = statuses :=
      List.map_injective_iff.mpr (fun _ _ h => Packet.line.inj h) hlines
    subst hsame
    exact fun u hu => ⟨hforall.mp hstatuses u hu, hfits _ (List.mem_map_of_mem hu)⟩
  · intro h
    refine ⟨updates.map line, reportPackets_of_fits fun l hl => ?_, hforall.mpr fun u hu => (h u hu).1⟩
    obtain ⟨u, hu, rfl⟩ := List.mem_map.mp hl
    exact (h u hu).2

theorem not_truthful_nil (refs : String → Option ObjectId) (updates : List RefUpdate) :
    ¬ Truthful refs updates [] := by
  rintro ⟨statuses, hsent, -⟩
  simp at hsent

variable [DecidableEq Repo] {b : StorageBackend σ ρ Repo Pack} {a : RepoAccess σ ρ Ctx} {Wf : σ → Prop}
  {refs : σ → RefMap Repo} {Accepts : Repo → RefMap Repo → List RefUpdate → Prop}

theorem truthful_conclude (htx : RefTransactions b Wf refs Accepts) {s : σ} (hwf : Wf s)
    (repo : Repo) (hfits : ∀ u ∈ updates, Fits (okLine u)) (rejection : Option String) :
    Truthful (refs (conclude b s repo updates rejection).1 repo) updates
      (conclude b s repo updates rejection).2 ↔
      Reportable Accepts repo (refs s) updates rejection := by
  cases rejection with
  | some msg =>
    refine (truthful_reportPackets _).trans (forall₂_congr fun u _ => ?_)
    rw [statusOf_ngLine]
    rfl
  | none =>
    rw [Reportable, conclude, ← htx.accepts_iff hwf]
    cases hresult : (b.updateRefs s repo updates).2 with
    | error e => exact iff_of_false (not_truthful_nil _ _) (by simp)
    | ok _ =>
      have happlied := htx.applied hwf repo updates ((htx.accepts_iff hwf repo updates).mp hresult)
      simp only [truthful_reportPackets, statusOf_okLine, true_and, happlied]
      rw [← RefMap.applyAll_all_iff repo (refs s)]
      exact forall₂_congr fun u hu => and_iff_left (hfits u hu)

theorem verdict_store_refs (htx : RefTransactions b Wf refs Accepts) {s s' : σ} {repo : Repo}
    {rest : Bytes} {pack : Option Pack} {packMeta : Option PackMetadata} (hwf : Wf s)
    (hingested : Ingested b s repo rest s' pack packMeta) (v : Verdict) :
    Wf (v.store b s s' pack) ∧ refs (v.store b s s' pack) = refs s := by
  have hafter : Wf s' ∧ refs s' = refs s := by
    cases hingested with
    | noBody => exact ⟨hwf, rfl⟩
    | noPack _ h | inspected _ h _ =>
      have hkept := htx.ingest hwf repo rest
      rwa [h] at hkept
  cases v with
  | turnedAway => exact ⟨hwf, rfl⟩
  | accepted => exact hafter
  | refused =>
    cases pack with
    | none => exact hafter
    | some pack =>
      obtain ⟨hwf', hrefs⟩ := htx.rollback hafter.1 pack
      exact ⟨hwf', hrefs.trans hafter.2⟩

theorem truthful_drive (htx : RefTransactions b Wf refs Accepts) (transport : Transport)
    {limits : Receive.ProtocolLimits} {repo : Repo} {body rest : Bytes} {s s' : σ}
    {pack : Option Pack} {packMeta : Option PackMetadata} (hwf : Wf s)
    (hread : Receive.readReceiveRequest limits body = .ok (updates, rest))
    (hopen : b.openRepo s a.repoId = .ok repo)
    (hingested : Ingested b s repo rest s' pack packMeta) :
    Truthful (refs (drive b a transport limits repo body s).1 repo) updates
      (drive b a transport limits repo body s).2 ↔
      Reportable Accepts repo (refs s) updates
        ((verdict b a s' repo updates packMeta).rejection transport updates) := by
  obtain ⟨hwf', hrefs⟩ := verdict_store_refs htx hwf hingested (verdict b a s' repo updates packMeta)
  rw [drive_eq transport hread hopen hingested, truthful_conclude htx hwf' repo (fits_okLine hread), hrefs]

/-- **The report of a push is complete and true exactly for the reportable requests**, on both
databases and both transports. -/
theorem truthful_iff (transport : Transport) {limits : Receive.ProtocolLimits} {body rest : Bytes}
    {updates : List RefUpdate}
    (hread : Receive.readReceiveRequest limits body = .ok (updates, rest)) (p : PackReader)
    (outage : Option String) :
    (∀ (r : Reading Sql.Db ρ Int) (cause : String) (a : RepoAccess Sql.Db ρ Ctx) (db db' :
      Sql.Db) (repo : Int)
        (pack : Option PackMetadata) (packMeta : Option PackMetadata),
      let b := sqlStorage r p cause outage
      Sql.WellFormed db.refs → b.openRepo db a.repoId = .ok repo → Ingested b db repo rest db' pack packMeta →
      (Truthful (Sql.refMap (drive b a transport limits repo body db).1.refs repo) updates
          (drive b a transport limits repo body db).2 ↔
        Reportable (SqlAccepts outage) repo (Sql.refMap db.refs) updates
          ((verdict b a db' repo updates packMeta).rejection transport updates))) ∧
    (∀ (r : Reading Kv.Store ρ UInt64) (mode : Lock.LockRead) (a : RepoAccess Kv.Store ρ Ctx) (s s' : Kv.Store)
        (repo : UInt64) (pack : Option PackMetadata) (packMeta : Option PackMetadata),
      let b := kvStorage r p mode outage
      Kv.WellFormed s → b.openRepo s a.repoId = .ok repo → Ingested b s repo rest s' pack packMeta →
      (Truthful (Kv.refMap (drive b a transport limits repo body s).1 repo) updates
          (drive b a transport limits repo body s).2 ↔
        Reportable (KvAccepts mode outage) repo (Kv.refMap s) updates
          ((verdict b a s' repo updates packMeta).rejection transport updates))) := by
  constructor
  · intro r cause a db db' repo pack packMeta b hwf hopen hingested
    exact truthful_drive (sqlStorage_refTransactions r p cause outage) transport hwf hread hopen hingested
  · intro r mode a s s' repo pack packMeta b hwf hopen hingested
    exact truthful_drive (kvStorage_refTransactions r p mode outage) transport hwf hread hopen hingested

/-- The creation of a branch in an empty store. -/
theorem truthful_createRequest :
    Truthful (Sql.refMap (drive (sqlStorage (plainReading 1) noPacks "constraint" none)
      anyoneAccess .http {} 1
        createRequest emptyDb).1.refs 1) [createMain]
      (drive (sqlStorage (plainReading 1) noPacks "constraint" none) anyoneAccess .http {} 1 createRequest emptyDb).2 ∧
    Truthful (Kv.refMap (drive (kvStorage (plainReading 1) noPacks .committed none) anyoneAccess .http {} 1
        createRequest ∅).1 1) [createMain]
      (drive (kvStorage (plainReading 1) noPacks .committed none) anyoneAccess .http {} 1 createRequest ∅).2 := by
  obtain ⟨hsql, hkv⟩ := @truthful_iff Unit Unit .http _ _ _ _ read_createRequest noPacks none
  have hsame : ∀ u ∈ [createMain], ∀ v ∈ [createMain], u.refname = v.refname → u.newOid = v.newOid := by simp
  constructor
  · refine (hsql _ _ _ emptyDb emptyDb 1 none none nofun rfl .noBody).mpr ⟨Or.inr ⟨rfl, ?_, trivial⟩, hsame⟩
    rw [Sql.Accepts, if_neg (by decide)]
    decide
  · refine (hkv _ _ _ ∅ ∅ 1 none none (fun repo name v hv => by simp at hv) rfl .noBody).mpr ⟨⟨rfl, ?_⟩, hsame⟩
    simp [Kv.Accepts, RefMap.Expects, Kv.refMap, createMain]

/-- A database in which the branch exists. -/
def takenDb : Sql.Db := (Sql.updateRefsOwned emptyDb 1 [⟨.null, .fill 0x22, "refs/heads/main"⟩]).1

theorem drive_takenDb (transport : Transport) :
    (drive (sqlStorage (plainReading 1) noPacks "constraint" none) anyoneAccess transport {} 1
      createRequest takenDb).2
      = [] := by
  rw [drive_eq transport read_createRequest rfl .noBody]
  cases transport <;> decide +kernel

/-- A branch that someone else has created first: no report at all. -/
theorem not_truthful_takenDb :
    ¬ Truthful (Sql.refMap (drive (sqlStorage (plainReading 1) noPacks "constraint" none)
      anyoneAccess .http {} 1
        createRequest takenDb).1.refs 1) [createMain]
      (drive (sqlStorage (plainReading 1) noPacks "constraint" none) anyoneAccess .http {} 1 createRequest takenDb).2 ∧
    ¬ Truthful (Sql.refMap (drive (sqlStorage (plainReading 1) noPacks "constraint" none) anyoneAccess .ssh {} 1
        createRequest takenDb).1.refs 1) [createMain]
      (drive (sqlStorage (plainReading 1) noPacks "constraint" none) anyoneAccess .ssh {} 1
        createRequest takenDb).2 := by
  rw [drive_takenDb, drive_takenDb]
  exact ⟨not_truthful_nil _ _, not_truthful_nil _ _⟩

end Mizzle.Serve.Driver
