import Mizzle.Serve.PushReport

/-!
# What the refs name after an accepted push

No backend of this module compares the new oids of a push with the objects it has: `update_refs`
moves the refs, the classification treats an oid that it cannot look up like any other, and the pack
need not contain what the commands name. An accepted push therefore keeps the refs on stored objects
exactly if the client sees to it: the last command for every ref deletes the ref or names an object
that is stored or comes with the pack.

In a repository on disk a ref may also be symbolic. It names the object of the ref that it leads to,
which a push can delete.
-/

namespace Mizzle.Serve.Driver

open Lib Proto

variable {σ ρ Repo Pack Ctx : Type}

/-- The authoriser and, once the pack is in the store, the ref transaction accept. -/
def Accepted (b : StorageBackend σ ρ Repo Pack) (a : RepoAccess σ ρ Ctx) (s' : σ) (repo : Repo)
    (updates : List RefUpdate) (packMeta : Option PackMetadata) : Prop :=
  verdict b a s' repo updates packMeta = .accepted ∧ (b.updateRefs s' repo updates).2 = .ok ()

variable {rest : Bytes} {s s' : σ} {packMeta : Option PackMetadata}

theorem drive_accepted {b : StorageBackend σ ρ Repo Pack} {a : RepoAccess σ ρ Ctx}
    {limits : Receive.ProtocolLimits} {repo : Repo} {body rest : Bytes} {updates : List RefUpdate}
    {pack : Option Pack} (transport : Transport)
    (hread : Receive.readReceiveRequest limits body = .ok (updates, rest))
    (hopen : b.openRepo s a.repoId = .ok repo) (hingested : Ingested b s repo rest s' pack packMeta)
    (haccepted : Accepted b a s' repo updates packMeta) :
    (drive b a transport limits repo body s).1 = (b.updateRefs s' repo updates).1 := by
  rw [drive_eq transport hread hopen hingested, haccepted.1]
  rfl

/-! ### The databases -/

/-- Every ref names a stored object. -/
def NoneDangling (refs : String → Option ObjectId) (stored : ObjectId → Prop) : Prop :=
  ∀ n oid, refs n = some oid → stored oid

/-- The last command for every ref deletes it or names an object in `stored`. -/
def LastCommandsNamed (updates : List RefUpdate) (stored : ObjectId → Prop) : Prop :=
  ∀ before u after, updates = before ++ u :: after → (∀ v ∈ after, v.refname ≠ u.refname) →
    u.newOid = .null ∨ stored u.newOid

def packOids (packMeta : Option PackMetadata) : List ObjectId :=
  match packMeta with
  | none => []
  | some packMeta => packMeta.objects.map PackObject.oid

theorem ingestExtracted_eq {extract : Bytes → Except String (List PackObject)}
    (insert : σ → List ObjectId → σ) {staged : Bytes} {pack : Option PackMetadata}
    (hnil : insert s [] = s) (h : ingestExtracted extract insert s staged = (s', .ok pack)) :
    s' = insert s (packOids pack) := by
  rw [ingestExtracted] at h
  split at h
  · simp at h
  · obtain ⟨rfl, hpack⟩ := Prod.mk.inj h
    obtain rfl := Except.ok.inj hpack
    exact hnil.symm
  · obtain ⟨rfl, hpack⟩ := Prod.mk.inj h
    obtain rfl := Except.ok.inj hpack
    rfl

theorem ingested_sql {r : Reading Sql.Db ρ Int} {p : PackReader} {cause : String}
    {outage : Option String} {db db' : Sql.Db} {repo : Int} {pack packMeta : Option PackMetadata}
    (h : Ingested (sqlStorage r p cause outage) db repo rest db' pack packMeta) :
    db' = Sql.ingestPack p.content db repo (packOids packMeta) := by
  cases h with
  | noBody => rfl
  | noPack _ h => exact ingestExtracted_eq (fun db => Sql.ingestPack p.content db repo) rfl h
  | inspected _ h hmeta =>
    obtain rfl := Except.ok.inj hmeta
    exact ingestExtracted_eq (fun db => Sql.ingestPack p.content db repo) rfl h

theorem ingested_kv {r : Reading Kv.Store ρ UInt64} {p : PackReader} {mode : Lock.LockRead}
    {outage : Option String} {s s' : Kv.Store} {repo : UInt64} {pack packMeta : Option PackMetadata}
    (h : Ingested (kvStorage r p mode outage) s repo rest s' pack packMeta) :
    s' = Kv.ingestPack p.content s repo (packOids packMeta) := by
  cases h with
  | noBody => rfl
  | noPack _ h => exact ingestExtracted_eq (fun s => Kv.ingestPack p.content s repo) rfl h
  | inspected _ h hmeta =>
    obtain rfl := Except.ok.inj hmeta
    exact ingestExtracted_eq (fun s => Kv.ingestPack p.content s repo) rfl h

theorem noneDangling_iff [DecidableEq Repo] {b : StorageBackend σ ρ Repo Pack}
    {a : RepoAccess σ ρ Ctx} {Wf : σ → Prop} {refs : σ → RefMap Repo}
    {Accepts : Repo → RefMap Repo → List RefUpdate → Prop} (htx : RefTransactions b Wf refs Accepts)
    {repo : Repo} {updates : List RefUpdate} {pack : Option Pack} (hwf : Wf s)
    (hingested : Ingested b s repo rest s' pack packMeta)
    (haccepted : Accepted b a s' repo updates packMeta) {stored stored' : ObjectId → Prop}
    (hstored : ∀ oid, stored' oid ↔ stored oid ∨ oid ∈ packOids packMeta)
    (hbefore : NoneDangling (refs s repo) stored) :
    NoneDangling (refs (b.updateRefs s' repo updates).1 repo) stored' ↔
      LastCommandsNamed updates fun oid => stored oid ∨ oid ∈ packOids packMeta := by
  obtain ⟨hwf', hrefs⟩ := verdict_store_refs htx hwf hingested .accepted
  have haccepts := (htx.accepts_iff hwf' repo updates).mp haccepted.2
  have happlied := htx.applied hwf' repo updates haccepts
  simp only [Verdict.store] at happlied hrefs
  have hsame : NoneDangling (refs s' repo) stored' := by
    intro n oid hn
    rw [hrefs] at hn
    exact (hstored oid).mpr (Or.inl (hbefore n oid hn))
  rw [happlied, NoneDangling, RefMap.applyAll_forall_iff hsame]
  simp only [hstored, LastCommandsNamed]

/-! ### The repository on disk -/

/-- Stored before the push, or listed by the index that came with it. -/
def StoredOrPushed (loose : ObjectId → Prop) (listed : Bytes → List ObjectId) (s s' : FsStore)
    (pack : Option Gitoxide.FsWrittenPack) (oid : ObjectId) : Prop :=
  Gitoxide.Holds loose listed s.dir oid ∨ ∃ w, pack = some w ∧ Gitoxide.ListedBy listed s'.dir w.index oid

theorem ingested_fs {r : Reading FsStore ρ Unit} {g : Gix} {s s' : FsStore}
    {pack : Option Gitoxide.FsWrittenPack} (h : Ingested (fsStorage r g) s () rest s' pack packMeta)
    (loose : ObjectId → Prop) (listed : Bytes → List ObjectId) :
    s'.refs = s.refs ∧ ∀ oid, Gitoxide.Holds loose listed s'.dir oid ↔
      StoredOrPushed loose listed s s' pack oid := by
  cases h with
  | noBody => exact ⟨rfl, fun oid => by simp [StoredOrPushed]⟩
  | noPack _ h =>
    obtain ⟨hstore, hresult⟩ := Prod.mk.inj h
    subst hstore
    have hdir := Gitoxide.ingestPackSync_none (Prod.ext rfl hresult)
    exact ⟨rfl, fun oid => by simp [StoredOrPushed, hdir]⟩
  | @inspected _ _ w _ _ h _ =>
    obtain ⟨hstore, hresult⟩ := Prod.mk.inj h
    subst hstore
    refine ⟨rfl, fun oid => ?_⟩
    have hholds := Gitoxide.holds_ingestPackSync (Prod.ext rfl hresult) loose listed oid
    simpa [StoredOrPushed] using hholds

/-- **When an accepted push leaves every ref on a stored object**, on the SQL, the KV and the
gitoxide backend. -/
theorem acceptedPush_names_iff (transport : Transport) {limits : Receive.ProtocolLimits}
    {body rest : Bytes} {updates : List RefUpdate}
    (hread : Receive.readReceiveRequest limits body = .ok (updates, rest)) :
    (∀ (r : Reading Sql.Db ρ Int) (p : PackReader) (cause : String) (outage : Option String)
        (a : RepoAccess Sql.Db ρ Ctx) (db db' : Sql.Db) (repo : Int) (pack packMeta : Option PackMetadata),
      let b := sqlStorage r p cause outage
      Sql.WellFormed db.refs → b.openRepo db a.repoId = .ok repo → Ingested b db repo rest db' pack packMeta →
      Accepted b a db' repo updates packMeta →
      NoneDangling (Sql.refMap db.refs repo) (Sql.hasObject db repo ·) →
      let after := (drive b a transport limits repo body db).1
      (NoneDangling (Sql.refMap after.refs repo) (Sql.hasObject after repo ·) ↔
        LastCommandsNamed updates fun oid => Sql.hasObject db repo oid ∨ oid ∈ packOids packMeta)) ∧
    (∀ (r : Reading Kv.Store ρ UInt64) (p : PackReader) (mode : Lock.LockRead) (outage : Option String)
        (a : RepoAccess Kv.Store ρ Ctx) (s s' : Kv.Store) (repo : UInt64) (pack packMeta : Option PackMetadata),
      let b := kvStorage r p mode outage
      Kv.WellFormed s → b.openRepo s a.repoId = .ok repo → Ingested b s repo rest s' pack packMeta →
      Accepted b a s' repo updates packMeta →
      NoneDangling (Kv.refMap s repo) (Kv.hasObject s repo ·) →
      let after := (drive b a transport limits repo body s).1
      (NoneDangling (Kv.refMap after repo) (Kv.hasObject after repo ·) ↔
        LastCommandsNamed updates fun oid => Kv.hasObject s repo oid ∨ oid ∈ packOids packMeta)) ∧
    (∀ (r : Reading FsStore ρ Unit) (g : Gix) (a : RepoAccess FsStore ρ Ctx) (s s' : FsStore)
        (pack : Option Gitoxide.FsWrittenPack) (packMeta : Option PackMetadata) (loose : ObjectId → Prop)
        (listed : Bytes → List ObjectId),
      let b := fsStorage r g
      b.openRepo s a.repoId = .ok () → Ingested b s () rest s' pack packMeta → Accepted b a s' () updates packMeta →
      Gitoxide.AllNamed (Gitoxide.Holds loose listed s.dir) s.refs →
      let after := (drive b a transport limits () body s).1
      (Gitoxide.AllNamed (Gitoxide.Holds loose listed after.dir) after.refs ↔
        Gitoxide.KeepsNames (StoredOrPushed loose listed s s' pack) s.refs updates)) := by
  refine ⟨?_, ?_, ?_⟩
  · intro r p cause outage a db db' repo pack packMeta b hwf hopen hingested haccepted hbefore after
    have hafter : after = (b.updateRefs db' repo updates).1 := drive_accepted transport hread hopen hingested haccepted
    rw [hafter]
    refine noneDangling_iff (sqlStorage_refTransactions r p cause outage) hwf hingested haccepted
      (fun oid => ?_) hbefore
    have hobjects : (b.updateRefs db' repo updates).1.objects = db'.objects := objects_sqlUpdateRefs ..
    rw [Sql.hasObject, hobjects, ingested_sql hingested]
    exact Sql.hasObject_ingestPack p.content db repo (packOids packMeta) oid
  · intro r p mode outage a s s' repo pack packMeta b hwf hopen hingested haccepted hbefore after
    have hafter : after = (b.updateRefs s' repo updates).1 := drive_accepted transport hread hopen hingested haccepted
    rw [hafter]
    refine noneDangling_iff (kvStorage_refTransactions r p mode outage) hwf hingested haccepted (fun oid => ?_) hbefore
    obtain ⟨hwf', -⟩ := verdict_store_refs (kvStorage_refTransactions r p mode outage) hwf hingested .accepted
    have hobjects : (b.updateRefs s' repo updates).1[Kv.obj repo oid]? = s'[Kv.obj repo oid]? :=
      get_kvUpdateRefs mode outage hwf' repo updates fun name => Kv.refkey_ne_obj repo repo name oid
    rw [Kv.hasObject, hobjects, ingested_kv hingested]
    exact Kv.hasObject_ingestPack p.content s repo (packOids packMeta) oid
  · intro r g a s s' pack packMeta loose listed b hopen hingested haccepted hbefore after
    have hafter : after = (b.updateRefs s' () updates).1 := drive_accepted transport hread hopen hingested haccepted
    obtain ⟨hrefs, hstored⟩ := ingested_fs hingested loose listed
    have hwent := Gitoxide.updateRefsSync_wentThrough haccepted.2
    rw [hrefs] at hwent
    have hholds : Gitoxide.Holds loose listed after.dir = StoredOrPushed loose listed s s' pack := by
      funext oid
      rw [hafter]
      exact propext (hstored oid)
    rw [hholds, hafter]
    refine Gitoxide.allNamed_iff (fun oid h => Or.inl h) ?_ hbefore
    have hsame : (b.updateRefs s' () updates).1.refs = (Gitoxide.updateRefsSync g.validName s.refs updates).1 := by
      rw [← hrefs]
      rfl
    rw [hsame]
    exact hwent

/-- The library for concrete runs: every name is valid and no pack can be indexed. -/
def plainGix : Gix := ⟨fun _ => true, fun _ _ => none, fun _ => .error "opening pack bundle"⟩

/-- The stores after the creation of a branch over HTTP, without a pack and with no authoriser in
the way. -/
def sqlAfterCreate (db : Sql.Db) : Sql.Db :=
  (drive (sqlStorage (plainReading 1) noPacks "constraint" none) anyoneAccess .http {} 1 createRequest db).1

def kvAfterCreate (s : Kv.Store) : Kv.Store :=
  (drive (kvStorage (plainReading 1) noPacks .committed none) anyoneAccess .http {} 1 createRequest s).1

def fsAfterCreate (s : FsStore) : FsStore :=
  (drive (fsStorage (plainReading ()) plainGix) anyoneAccess .http {} () createRequest s).1

def emptyFs : FsStore := ⟨fun _ => none, fun _ => none⟩

/-- The branch is created for a stored object. -/
theorem acceptedPush_names_createRequest :
    (NoneDangling (Sql.refMap (sqlAfterCreate
      (Sql.ingestPack noPacks.content emptyDb 1 [.fill 0x11])).refs 1)
      (Sql.hasObject (sqlAfterCreate (Sql.ingestPack noPacks.content emptyDb 1 [.fill 0x11])) 1 ·)) ∧
    (NoneDangling (Kv.refMap (kvAfterCreate (Kv.ingestPack noPacks.content ∅ 1 [.fill 0x11])) 1)
      (Kv.hasObject (kvAfterCreate (Kv.ingestPack noPacks.content ∅ 1 [.fill 0x11])) 1 ·)) ∧
    Gitoxide.AllNamed (Gitoxide.Holds (· = .fill 0x11) (fun _ => []) (fsAfterCreate emptyFs).dir)
      (fsAfterCreate emptyFs).refs := by
  obtain ⟨hsql, hkv, hfs⟩ := @acceptedPush_names_iff Unit Unit .http _ _ _ _ read_createRequest
  have hlast : ∀ {stored : ObjectId → Prop}, stored (.fill 0x11) → LastCommandsNamed [createMain] stored := by
    intro stored hstored before u after hsplit _
    obtain rfl : u = createMain := by simpa using (hsplit ▸ by simp : u ∈ [createMain])
    exact Or.inr hstored
  refine ⟨?_, ?_, ?_⟩
  · refine (hsql (plainReading 1) noPacks "constraint" none anyoneAccess _ _ 1 none none ?_ rfl .noBody
      ⟨rfl, by decide +kernel⟩ ?_).mpr (hlast (Or.inl (by decide +kernel)))
    · rw [Sql.refs_ingestPack]
      exact nofun
    · intro n oid hn
      simp [Sql.refs_ingestPack, Sql.refMap, Sql.oidAt, emptyDb, Table.lookup, Table.empty] at hn
  · have hempty : ∀ repo name, (Kv.ingestPack noPacks.content ∅ 1 [.fill 0x11])[Kv.refkey repo name]? = none := by
      intro repo name
      rw [Kv.refs_ingestPack]
      simp
    refine (hkv (plainReading 1) noPacks .committed none anyoneAccess _ _ 1 none none
      (fun repo name v hv => by simp [hempty] at hv) rfl .noBody ⟨rfl, by decide +kernel⟩
      (fun n oid hn => by simp [Kv.refMap, hempty] at hn)).mpr (hlast (Or.inl ?_))
    rw [Kv.hasObject, Kv.get_obj_ingestPack, if_pos List.mem_cons_self]
    rfl
  · refine (hfs (plainReading ()) plainGix anyoneAccess emptyFs emptyFs none none (· = .fill 0x11) (fun _ => []) rfl
      .noBody ⟨rfl, by decide +kernel⟩ (fun n _ hn => absurd rfl hn)).mpr ?_
    intro n _ _ m _ u hu _
    obtain rfl := List.mem_singleton.mp hu
    exact ⟨by decide, Or.inl (Or.inl rfl)⟩

/-- The branch is created for an object that nobody has sent. -/
theorem createRequest_dangles :
    ¬ NoneDangling (Sql.refMap (sqlAfterCreate emptyDb).refs 1)
      (Sql.hasObject (sqlAfterCreate emptyDb) 1 ·) ∧
    ¬ NoneDangling (Kv.refMap (kvAfterCreate ∅) 1) (Kv.hasObject (kvAfterCreate ∅) 1 ·) ∧
    ¬ Gitoxide.AllNamed (Gitoxide.Holds (fun _ => False) (fun _ => []) (fsAfterCreate emptyFs).dir)
      (fsAfterCreate emptyFs).refs := by
  refine ⟨fun hnamed => ?_, fun hnamed => ?_, fun hnamed => ?_⟩
  · have hafter : sqlAfterCreate emptyDb = (sqlUpdateRefs "constraint" none emptyDb 1 [createMain]).1 :=
      drive_accepted .http read_createRequest rfl .noBody ⟨rfl, by decide +kernel⟩
    rw [hafter] at hnamed
    have hobject := hnamed "refs/heads/main" (.fill 0x11) (by decide +kernel)
    exact absurd hobject (by decide +kernel)
  · have hafter : kvAfterCreate ∅ = (kvUpdateRefs .committed none ∅ 1 [createMain]).1 :=
      drive_accepted .http read_createRequest rfl .noBody ⟨rfl, by decide +kernel⟩
    rw [hafter] at hnamed
    have hobject := hnamed "refs/heads/main" (.fill 0x11) (by decide +kernel)
    exact absurd hobject (by decide +kernel)
  · have hafter : fsAfterCreate emptyFs
        = ⟨fun _ => none, (Gitoxide.updateRefsSync plainGix.validName (fun _ => none) [createMain]).1⟩ :=
      drive_accepted .http read_createRequest rfl .noBody ⟨rfl, by decide +kernel⟩
    have hmain : (fsAfterCreate emptyFs).refs "refs/heads/main" = some (.object (.fill 0x11)) := by
      rw [hafter]
      decide +kernel
    have hnames := hnamed "refs/heads/main" (by decide) (by simp [hmain])
    cases hnames with
    | object _ hstored =>
      rw [hafter] at hstored
      simp [Gitoxide.Holds] at hstored
    | symbolic h => simp [hmain] at h

end Mizzle.Serve.Driver
