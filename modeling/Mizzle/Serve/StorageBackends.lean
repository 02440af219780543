import Mizzle.Backend.Gitoxide.Ingest
import Mizzle.Backend.Gitoxide.Refs
import Mizzle.Backend.Kv.Objects
import Mizzle.Backend.Sql.Objects
import Mizzle.Serve.DriverWorld

/-!
# The storage of a push

`StorageBackend` for the SQL, the KV and the gitoxide backend, from the models of their ingest and
their ref transaction. What a push only reads through (the opening of the repository, the listing of
its refs, the classification) is left to a parameter, and so is the decoding of a pack. A database
transaction of `update_refs` may fail as a whole (`outage`).

`RefTransactions` states what the drivers' results need of the ref transaction; both databases meet
it.
-/

namespace Mizzle.Serve.Driver

open Lib Proto

variable {σ ρ Repo Pack : Type}

/-- The operations of a backend that only look at the stored state, and the setting up of a
repository. -/
structure Reading (σ ρ Repo : Type) where
  initRepo : σ → ρ → σ × Except String Unit
  openRepo : σ → ρ → Except String Repo
  listRefs : σ → Repo → Except String RefsSnapshot
  computePushKind : σ → Repo → RefUpdate → PushKind

/-- The decoding of a pack: `extract_pack`, and what the oids stand for. -/
structure PackReader where
  extract : Bytes → Except String (List PackObject)
  content : ObjectId → ObjectContent

/-- The look at the header and the extraction, as both databases have them. -/
def readPack (extract : Bytes → Except String (List PackObject)) (staged : Bytes) :
    Except String (Option PackMetadata) :=
  if staged.length < 12 then .error "reading pack header"
  else if (Receive.packObjectCount (staged.take 12)).getD 0 = 0 then .ok none
  else
    match extract staged with
    | .error e => .error e
    | .ok [] => .ok none
    | .ok objects => .ok (some ⟨objects⟩)

/-- `ingest_pack` of a database, `insert` being its transaction for the objects of the pack. -/
def ingestExtracted (extract : Bytes → Except String (List PackObject))
    (insert : σ → List ObjectId → σ) (s : σ) (staged : Bytes) :
    σ × Except String (Option PackMetadata) :=
  match readPack extract staged with
  | .error e => (s, .error e)
  | .ok none => (s, .ok none)
  | .ok (some metadata) => (insert s (metadata.objects.map PackObject.oid), .ok (some metadata))

/-! ### SQL -/

/-- `update_refs` of the SQL backend; an empty batch does not reach the database. -/
def sqlUpdateRefs (cause : String) (outage : Option String) (db : Sql.Db) (repo : Int)
    (updates : List RefUpdate) : Sql.Db × Except String Unit :=
  if updates.isEmpty then (db, .ok ())
  else
    match outage with
    | some e => (db, .error e)
    | none =>
      ((Sql.updateRefsOwned db repo updates).1,
        (Sql.updateRefsOwned db repo updates).2.mapError (Sql.UpdateRefsError.message cause))

def sqlStorage (r : Reading Sql.Db ρ Int) (p : PackReader) (cause : String)
    (outage : Option String) : StorageBackend Sql.Db ρ Int PackMetadata where
  initRepo := r.initRepo
  openRepo := r.openRepo
  listRefs := r.listRefs
  ingestPack db repo := ingestExtracted p.extract (fun db => Sql.ingestPack p.content db repo) db
  inspectIngested _ pack := .ok pack
  rollbackIngest db _ := db
  computePushKind := r.computePushKind
  updateRefs := sqlUpdateRefs cause outage

/-! ### KV -/

/-- `update_refs` of the KV backend. -/
def kvUpdateRefs (mode : Lock.LockRead) (outage : Option String) (s : Kv.Store) (repo : UInt64)
    (updates : List RefUpdate) : Kv.Store × Except String Unit :=
  match outage with
  | some e => (s, .error e)
  | none => Kv.updateRefs mode s repo updates

def kvStorage (r : Reading Kv.Store ρ UInt64) (p : PackReader) (mode : Lock.LockRead)
    (outage : Option String) : StorageBackend Kv.Store ρ UInt64 PackMetadata where
  initRepo := r.initRepo
  openRepo := r.openRepo
  listRefs := r.listRefs
  ingestPack s repo := ingestExtracted p.extract (fun s => Kv.ingestPack p.content s repo) s
  inspectIngested _ pack := .ok pack
  rollbackIngest s _ := s
  computePushKind := r.computePushKind
  updateRefs := kvUpdateRefs mode outage

/-! ### gitoxide -/

/-- A repository on disk: `objects/pack` and the refs. -/
structure FsStore where
  dir : PackDir
  refs : Gitoxide.RefStore

/-- What the libraries under the gitoxide backend do. -/
structure Gix where
  validName : String → Bool
  writeToDirectory : PackDir → Bytes → Option (List (String × Bytes))
  inspectPack : Option Bytes → Except String PackMetadata

def fsStorage (r : Reading FsStore ρ Unit) (g : Gix) :
    StorageBackend FsStore ρ Unit Gitoxide.FsWrittenPack where
  initRepo := r.initRepo
  openRepo := r.openRepo
  listRefs := r.listRefs
  ingestPack s _ staged :=
    ({ s with dir := (Gitoxide.ingestPackSync g.writeToDirectory s.dir staged).1 },
      (Gitoxide.ingestPackSync g.writeToDirectory s.dir staged).2)
  inspectIngested s pack := g.inspectPack (s.dir pack.pack)
  rollbackIngest s pack := { s with dir := Gitoxide.rollbackIngest s.dir pack }
  computePushKind := r.computePushKind
  updateRefs s _ updates :=
    ({ s with refs := (Gitoxide.updateRefsSync g.validName s.refs updates).1 },
      (Gitoxide.updateRefsSync g.validName s.refs updates).2)

/-! ### The ref transactions of the databases -/

/-- The ref transaction of a backend with a ref map in each well-formed state: which batches go
through, and what they leave. The rest of a push leaves the map alone. -/
structure RefTransactions [DecidableEq Repo] (b : StorageBackend σ ρ Repo Pack) (Wf : σ → Prop)
    (refs : σ → RefMap Repo) (Accepts : Repo → RefMap Repo → List RefUpdate → Prop) : Prop where
  accepts_iff : ∀ {s}, Wf s → ∀ repo updates,
    ((b.updateRefs s repo updates).2 = .ok () ↔ Accepts repo (refs s) updates)
  applied : ∀ {s}, Wf s → ∀ repo updates, Accepts repo (refs s) updates →
    refs (b.updateRefs s repo updates).1 = (refs s).applyAll repo updates
  ingest : ∀ {s}, Wf s → ∀ repo staged,
    Wf (b.ingestPack s repo staged).1 ∧ refs (b.ingestPack s repo staged).1 = refs s
  rollback : ∀ {s}, Wf s → ∀ pack, Wf (b.rollbackIngest s pack) ∧ refs (b.rollbackIngest s pack) = refs s

/-- The SQL transaction: the batch is empty, or the database is up and every statement finds its
row. -/
def SqlAccepts (outage : Option String) (repo : Int) (refs : RefMap Int)
    (updates : List RefUpdate) : Prop :=
  updates = [] ∨ outage = none ∧ refs.InTurn (Sql.Accepts repo) repo updates

/-- The KV transaction: the store is up and the body accepts. -/
def KvAccepts (mode : Lock.LockRead) (outage : Option String) (repo : UInt64) (refs : RefMap UInt64)
    (updates : List RefUpdate) : Prop :=
  outage = none ∧ Kv.Accepts mode repo refs updates

theorem ingestExtracted_of_insert {extract : Bytes → Except String (List PackObject)}
    {insert : σ → List ObjectId → σ} {P : σ → Prop} {s : σ} (h : P s)
    (hinsert : ∀ oids, P (insert s oids)) (staged : Bytes) :
    P (ingestExtracted extract insert s staged).1 := by
  rw [ingestExtracted]
  split
  · exact h
  · exact h
  · exact hinsert _

theorem sqlUpdateRefs_iff (cause : String) (outage : Option String) {db : Sql.Db}
    {refs : RefMap Int} (h : Sql.Represents db.refs refs) (repo : Int) (updates : List RefUpdate) :
    ((sqlUpdateRefs cause outage db repo updates).2 = .ok () ↔
      SqlAccepts outage repo refs updates) ∧
      (SqlAccepts outage repo refs updates →
        Sql.Represents (sqlUpdateRefs cause outage db repo updates).1.refs (refs.applyAll repo updates)) := by
  obtain ⟨hok, happlied⟩ := Sql.updateRefsOwned_iff h repo updates
  have hmessage : ∀ result : Except Sql.UpdateRefsError Unit,
      result.mapError (Sql.UpdateRefsError.message cause) = .ok () ↔ result = .ok () := by
    rintro (e | ⟨⟩)
    · exact iff_of_false nofun nofun
    · exact iff_of_true rfl rfl
  by_cases hempty : updates = []
  · subst hempty
    exact ⟨iff_of_true rfl (Or.inl rfl), fun _ => h⟩
  · rw [SqlAccepts, or_iff_right hempty]
    unfold sqlUpdateRefs
    rw [if_neg (by simpa using hempty)]
    cases outage with
    | some e => exact ⟨iff_of_false nofun nofun, nofun⟩
    | none => exact ⟨(hmessage _).trans (hok.trans (and_iff_right rfl).symm), fun haccepts => happlied haccepts.2⟩

theorem kvUpdateRefs_iff (mode : Lock.LockRead) (outage : Option String) {s : Kv.Store}
    {refs : RefMap UInt64} (h : Kv.Represents s refs) (repo : UInt64) (updates : List RefUpdate) :
    ((kvUpdateRefs mode outage s repo updates).2 = .ok () ↔
      KvAccepts mode outage repo refs updates) ∧
      (KvAccepts mode outage repo refs updates →
        Kv.Represents (kvUpdateRefs mode outage s repo updates).1 (refs.applyAll repo updates)) := by
  obtain ⟨hok, happlied⟩ := Kv.updateRefs_iff mode h repo updates
  cases outage with
  | some e => exact ⟨iff_of_false nofun nofun, nofun⟩
  | none => exact ⟨hok.trans (and_iff_right rfl).symm, fun haccepts => happlied haccepts.2⟩

theorem sqlStorage_refTransactions (r : Reading Sql.Db ρ Int) (p : PackReader) (cause : String)
    (outage : Option String) :
    RefTransactions (sqlStorage r p cause outage) (fun db => Sql.WellFormed db.refs) (fun db =>
      Sql.refMap db.refs)
      (SqlAccepts outage) where
  accepts_iff hwf repo updates := (sqlUpdateRefs_iff cause outage (Sql.represents_refMap hwf) repo updates).1
  applied hwf repo updates haccepts :=
    Sql.refMap_eq ((sqlUpdateRefs_iff cause outage (Sql.represents_refMap hwf) repo updates).2 haccepts)
  ingest {db} hwf repo staged := by
    have hrefs : ((sqlStorage r p cause outage).ingestPack db repo staged).1.refs = db.refs :=
      ingestExtracted_of_insert (P := fun db' : Sql.Db => db'.refs = db.refs) rfl
        (Sql.refs_ingestPack p.content db repo) staged
    exact ⟨hrefs ▸ hwf, congrArg Sql.refMap hrefs⟩
  rollback hwf _ := ⟨hwf, rfl⟩

theorem kvStorage_refTransactions (r : Reading Kv.Store ρ UInt64) (p : PackReader)
    (mode : Lock.LockRead) (outage : Option String) :
    RefTransactions (kvStorage r p mode outage) Kv.WellFormed Kv.refMap
      (KvAccepts mode outage) where
  accepts_iff hwf repo updates := (kvUpdateRefs_iff mode outage (Kv.represents_refMap hwf) repo updates).1
  applied hwf repo updates haccepts :=
    Kv.refMap_eq ((kvUpdateRefs_iff mode outage (Kv.represents_refMap hwf) repo updates).2 haccepts)
  ingest {s} hwf repo staged := by
    have hrefs : ∀ repo' name, ((kvStorage r p mode outage).ingestPack s repo staged).1[Kv.refkey repo' name]?
        = s[Kv.refkey repo' name]? :=
      ingestExtracted_of_insert (P := fun s' : Kv.Store => ∀ repo' name,
        s'[Kv.refkey repo' name]? = s[Kv.refkey repo' name]?) (fun _ _ => rfl)
        (Kv.refs_ingestPack p.content s repo) staged
    refine ⟨fun repo' name v hv => hwf repo' name v (hrefs repo' name ▸ hv), ?_⟩
    funext repo' name
    rw [Kv.refMap, hrefs, Kv.refMap]
  rollback hwf _ := ⟨hwf, rfl⟩

theorem objects_sqlUpdateRefs (cause : String) (outage : Option String) (db : Sql.Db) (repo : Int)
    (updates : List RefUpdate) :
    (sqlUpdateRefs cause outage db repo updates).1.objects = db.objects := by
  unfold sqlUpdateRefs Sql.updateRefsOwned
  split
  · rfl
  · cases outage with
    | some e => rfl
    | none =>
      dsimp only
      split <;> rfl

theorem get_kvUpdateRefs (mode : Lock.LockRead) (outage : Option String) {s : Kv.Store}
    (hwf : Kv.WellFormed s) (repo : UInt64) (updates : List RefUpdate) {key : Bytes}
    (hkey : ∀ name, Kv.refkey repo name ≠ key) :
    (kvUpdateRefs mode outage s repo updates).1[key]? = s[key]? := by
  cases outage with
  | some e => rfl
  | none => exact Kv.get_updateRefs mode (Kv.represents_refMap hwf) repo updates hkey

/-! ### Parameters for concrete runs -/

/-- One repository without a listing of its refs; an update counts as forced. -/
def plainReading (repo : Repo) : Reading σ ρ Repo where
  initRepo s _ := (s, .ok ())
  openRepo _ _ := .ok repo
  listRefs _ _ := .ok ⟨none, []⟩
  computePushKind _ _ u := PushKind.classify u.oldOid u.newOid false

/-- No pack can be read. -/
def noPacks : PackReader := ⟨fun _ => .error "opening pack bundle", fun _ => ⟨.blob, [], []⟩⟩

def anyoneAccess : RepoAccess σ Unit Unit where
  repoId := ()
  autoInit := false
  authorizePreliminary _ := .ok ()
  authorizePush _ _ _ := .ok ()

def emptyDb : Sql.Db := ⟨.empty, .empty, .empty⟩

end Mizzle.Serve.Driver
