import Mizzle.Backend.Repository
import Mizzle.Backend.Sql.Holds
import Mizzle.Backend.Sql.ParentRows

/-!
# The SQL backend as a service

`mizzle/src/backend/sql/mod.rs` with the reads of `sql/refs.rs` and `sql/objects.rs`: every request
opens its repository by the path, which gives the id of its rows, and runs one operation on the rows
with that id. A new row of `repositories` gets the id after the largest one, as SQLite assigns an
`INTEGER PRIMARY KEY`; no statement writes the column `head`.

The tables stand for the repositories that `Storage.spec` speaks of (`Stands`): the rows with an id
are those of the repository with that number. Every operation changes the rows with its own id only
(`Moves`), so the backend does what is specified for any requests to any repositories
(`implements_spec`).
-/

namespace Mizzle.Sql

open Lib Pack Storage

/-! ### Repositories and reads -/

structure RepoRow where
  id : Int
  path : String
  head : Option String

/-- `path TEXT NOT NULL UNIQUE`. -/
abbrev RepoTable := Table RepoRow String RepoRow.path

structure Tables extends Db where
  repositories : RepoTable

def nextRowid (t : RepoTable) : Int := (t.rows.map RepoRow.id).foldl max 0 + 1

/-- `init_repo`: `INSERT OR IGNORE INTO repositories (path) VALUES (?)`. -/
def initRepo (t : RepoTable) (path : String) : RepoTable :=
  t.insertOrIgnore ⟨nextRowid t, path, none⟩

/-- `open`. -/
def openRepo (t : RepoTable) (path : String) : Except String Int :=
  match t.lookup path with
  | some row => .ok row.id
  | none => .error (path.quote ++ " does not appear to be a git repository")

/-- A row of `refs` is added to the listing. -/
def listRow (headTarget : String) (snapshot : RefsSnapshot) (row : RefRow) :
    Except ReachableError RefsSnapshot := do
  let oid ← parseOid row.oid
  return {
    head := if row.name = headTarget then some ⟨oid, some headTarget⟩ else snapshot.head
    refs := snapshot.refs ++ [⟨row.name, oid, none, none⟩] }

/-- `list_refs`; the target of `HEAD` is read from the row of the repository. -/
def listRefs (t : Tables) (repoDbId : Int) : Except ReachableError RefsSnapshot :=
  let headTarget := ((t.repositories.rows.find? fun row => row.id = repoDbId).bind RepoRow.head).getD "refs/heads/main"
  (t.refs.rows.filter fun row => row.repoId = repoDbId).foldlM (listRow headTarget) ⟨none, []⟩

/-- `resolve_ref`. -/
def resolveRef (db : Db) (repoDbId : Int) (refname : String) :
    Except ReachableError (Option ObjectId) :=
  match oidAt db.refs repoDbId refname with
  | some raw => (parseOid raw).map some
  | none => .ok none

/-- `read_blob`. -/
def readBlob (db : Db) (repoDbId : Int) (oid : ObjectId) (cap : Nat) : Option Bytes :=
  match db.objects.lookup (repoDbId, oid.bytes) with
  | some row => if row.kind ≠ kindInt .blob ∨ cap < row.data.length then none else some row.data
  | none => none

/-- `read_object_raw`. -/
def readObjectRaw (db : Db) (repoDbId : Int) (oid : ObjectId) (cap : Nat) : Option Bytes :=
  match db.objects.lookup (repoDbId, oid.bytes) with
  | some row => if cap < row.data.length then none else some row.data
  | none => none

/-- `read_commit_info`. -/
def readCommitInfo (parseCommitInfo : Bytes → ObjectId → Except String CommitInfo) (db : Db)
    (repoDbId : Int) (oid : ObjectId) : Except String CommitInfo :=
  match db.objects.lookup (repoDbId, oid.bytes) with
  | some row =>
    if row.kind ≠ kindInt .commit then
      .error ("object " ++ oid.toHexString ++ " is not a commit (kind=" ++ toString row.kind ++ ")")
    else parseCommitInfo row.data oid
  | none => .error ("commit " ++ oid.toHexString ++ " not in object store")

/-- The read of `fetch_trees_recursive`. -/
def readTree (db : Db) (repoDbId : Int) (oid : ObjectId) : Except String Bytes :=
  match db.objects.lookup (repoDbId, oid.bytes) with
  | some row =>
    if row.kind ≠ kindInt .tree then
      .error ("object " ++ oid.toHexString ++ " is not a tree (kind=" ++ toString row.kind ++ ")")
    else .ok row.data
  | none => .error ("tree " ++ oid.toHexString ++ " not found")

/-- `build_pack`; the id is cast to `u64` for the cache. The options are a part of the key only. -/
def buildPack (codec : Codec) (fuel : Nat) (dir : CacheDir) (db : Db) (repoDbId : Int)
    (request : Pack.Request) : Option (CacheDir × Except String (Finset PackedObject)) :=
  dir.buildPack (UInt64.ofInt repoDbId) (cacheKey codec.sha256 (UInt64.ofInt repoDbId) request)
    ((database codec.parser fuel db repoDbId).packObjects request.wants request.haves)

variable (content : ObjectId → ObjectContent) (codec : Codec) (cause : String)

/-- An operation on an opened repository: the tables afterwards, and the cache with the reply.
`cause` is the driver's own text for a constraint violation. -/
def runOperation (fuel : Nat) (dir : CacheDir) (repoDbId : Int) (op : Operation) (t : Tables) :
    Tables × Option (CacheDir × Reply) :=
  match op with
  | .listRefs => (t, some (dir, .ofResult .refs ((listRefs t repoDbId).mapError ReachableError.message)))
  | .resolveRef refname =>
    (t, some (dir, .ofResult .ref ((resolveRef t.toDb repoDbId refname).mapError ReachableError.message)))
  | .updateRefs updates =>
    let (db, result) := updateRefsOwned t.toDb repoDbId updates
    ({ t with toDb := db }, some (dir, .ofResult (fun _ => .done) (result.mapError (UpdateRefsError.message cause))))
  | .hasObject oid => (t, some (dir, .found [hasObject t.toDb repoDbId oid]))
  | .hasObjects oids => (t, some (dir, .found (oids.map (hasObject t.toDb repoDbId))))
  | .readBlob oid cap => (t, some (dir, .data (readBlob t.toDb repoDbId oid cap)))
  | .readObjectRaw oid cap => (t, some (dir, .data (readObjectRaw t.toDb repoDbId oid cap)))
  | .readCommitInfo oid =>
    (t, some (dir, .ofResult .commit (readCommitInfo codec.parseCommitInfo t.toDb repoDbId oid)))
  | .ingestPack oids => ({ t with toDb := ingestPack content t.toDb repoDbId oids }, some (dir, .done))
  | .computePushKind oldOid newOid =>
    (t, (computePushKind fuel t.toDb repoDbId oldOid newOid).map fun kind => (dir, .kind kind))
  | .reachableExcluding tips excluding cap =>
    (t, Option.map (fun result => (dir, .commits result)) (reachableExcluding fuel t.toDb repoDbId tips excluding cap))
  | .buildPack request =>
    (t, (buildPack codec fuel dir t.toDb repoDbId request).map fun (dir, result) => (dir, .ofResult .pack result))
  | .treeDiff parentTree childTree =>
    (t, Option.map (fun result => (dir, .ofResult .diff result))
      (treeDiff codec.parser (readTree t.toDb repoDbId) codec.treeDiff fuel parentTree childTree))

def serve : Service (Backend Tables) Storage.Request Reply :=
  serveWith (fun t path => ({ t with repositories := initRepo t.repositories path }, .done))
    (fun t path => openRepo t.repositories path) (runOperation content codec cause)

/-! ### The rows of one repository -/

/-- What no statement breaks, whatever the repository. -/
structure Intact (db : Db) : Prop where
  parentRows : RowsIngested content db.commitParents
  refs : WellFormed db.refs

/-- The rows with the id are those of the repository. -/
structure HoldsRepo (db : Db) (repoDbId : Int) (r : Repository) : Prop where
  object : ∀ oid : ObjectId, db.objects.lookup (repoDbId, oid.bytes) =
    if oid ∈ r.objects then some (objectRow content repoDbId oid) else none
  parentRow : ∀ row : ParentRow, row.repoId = repoDbId →
    (row ∈ db.commitParents.rows ↔ ∃ c ∈ r.objects, row ∈ parentRows content repoDbId c)
  refs : refMap db.refs repoDbId = r.refs

/-- The rows with the id become those of `r'`, and the other rows are left alone. -/
structure Moves (db db' : Db) (repoDbId : Int) (r' : Repository) : Prop where
  intact : Intact content db'
  holds : HoldsRepo content db' repoDbId r'
  frame : ∀ {id r}, id ≠ repoDbId → HoldsRepo content db id r → HoldsRepo content db' id r

variable {content codec cause} {p : Parser} {db : Db} {repo : Int} {r : Repository}

theorem Moves.refl (hintact : Intact content db) (h : HoldsRepo content db repo r) :
    Moves content db db repo r :=
  ⟨hintact, h, fun _ hother => hother⟩

theorem WellFormed.of_represents {table : RefTable} {refs : RefMap Int}
    (h : Represents table refs) : WellFormed table := by
  intro row hrow
  have hat : oidAt table row.repoId row.name = some row.oid := by
    rw [oidAt, Table.lookup_eq_some.mpr ⟨hrow, rfl⟩, Option.map_some]
  rw [h] at hat
  obtain ⟨oid, -, hbytes⟩ := Option.map_eq_some_iff.mp hat
  rw [← hbytes, oid.length_eq]

/-! ### The operations that write -/

theorem lookup_ingestPack_of_ne {id : Int} (hne : id ≠ repo) (db : Db) (oids : List ObjectId)
    (b : Bytes) :
    (ingestPack content db repo oids).objects.lookup (id, b) = db.objects.lookup (id, b) := by
  induction oids generalizing db with
  | nil => rfl
  | cons o oids ih =>
    have hkey : (id, b) ≠ ((objectRow content repo o).repoId, (objectRow content repo o).oid) := fun hkey =>
      hne (Prod.mk.inj hkey).1
    have hone := Table.lookup_insertOrIgnore db.objects (objectRow content repo o) (id, b)
    rw [if_neg hkey, Option.or_none] at hone
    exact (ih (insertObject content repo db o)).trans hone

theorem HoldsRepo.ingestPack (hintact : Intact content db) (hfew : FewParents content)
    (h : HoldsRepo content db repo r) (oids : List ObjectId) :
    Moves content db (ingestPack content db repo oids) repo (r.after (.ingestPack oids)) := by
  obtain ⟨hrows, hmem⟩ := mem_commitParents_ingestPack_iff hfew hintact.parentRows repo oids
  have hrefs := refs_ingestPack content db repo oids
  refine ⟨⟨hrows, hrefs ▸ hintact.refs⟩, ⟨fun oid => ?_, fun row hrow => ?_, by rw [hrefs]; exact h.refs⟩, ?_⟩
  · rw [lookup_ingestPack, h.object]
    by_cases hold : oid ∈ r.objects <;> simp [Repository.after, hold]
  · rw [hmem, h.parentRow row hrow, Repository.after]
    simp only [Finset.mem_union, List.mem_toFinset, or_and_right, exists_or]
  · intro id r' hne hother
    refine ⟨fun oid => (lookup_ingestPack_of_ne hne db oids oid.bytes).trans (hother.object oid), fun row hrow => ?_,
      by rw [hrefs]; exact hother.refs⟩
    rw [hmem, ← hother.parentRow row hrow, or_iff_left_iff_imp]
    rintro ⟨c, -, hc⟩
    obtain ⟨parent, i, -, rfl⟩ := mem_parentRows.mp hc
    exact absurd hrow.symm hne

theorem HoldsRepo.updateRefs (hintact : Intact content db) (h : HoldsRepo content db repo r)
    {us : List RefUpdate} (hnames : (us.map (·.refname)).Nodup)
    (hnull : ∀ u ∈ us, u.oldOid = .null → u.newOid ≠ .null) :
    Moves content db (updateRefsOwned db repo us).1 repo (r.after (.updateRefs us)) ∧
      ((∀ u ∈ us, r.refMap.Expects () u) → (updateRefsOwned db repo us).2 = .ok ()) ∧
      (¬ (∀ u ∈ us, r.refMap.Expects () u) → ∃ e, (updateRefsOwned db repo us).2 = .error e) := by
  have himpl := updateRefsOwned_implements (represents_refMap hintact.refs) repo hnames hnull
  obtain ⟨refs', hrep, hown, hother, hyes, hno⟩ :=
    Repository.updateRefs_spec himpl (represents_refMap hintact.refs) h.refs
  have htables : (updateRefsOwned db repo us).1.objects = db.objects ∧
      (updateRefsOwned db repo us).1.commitParents = db.commitParents := by
    rw [updateRefsOwned]
    split
    · exact ⟨rfl, rfl⟩
    · split <;> exact ⟨rfl, rfl⟩
  have hframe : ∀ {id r₀ r₁}, HoldsRepo content db id r₀ → r₁.objects = r₀.objects → refs' id = r₁.refs →
      HoldsRepo content (updateRefsOwned db repo us).1 id r₁ := by
    intro id r₀ r₁ hold hobjects hrefs
    refine ⟨?_, ?_, by rw [refMap_eq hrep, hrefs]⟩
    · rw [htables.1, hobjects]
      exact hold.object
    · rw [htables.2, hobjects]
      exact hold.parentRow
  refine ⟨⟨⟨htables.2 ▸ hintact.parentRows, .of_represents hrep⟩,
    hframe h (Repository.objects_updateRefs us) hown, fun hid hold =>
      hframe hold rfl ?_⟩, hyes, fun hnot => (hno hnot).2⟩
  rw [hother _ hid]
  exact hold.refs

/-! ### The operations that read -/

theorem parentRows_sorted {c : ObjectId} (hfew : (content c).parents.length ≤ 65536) :
    (parentRows content repo c).Pairwise fun a b => a.position < b.position := by
  rw [parentRows, List.pairwise_map, List.pairwise_iff_getElem]
  intro i j hi hj hij
  simp only [List.length_zipIdx] at hi hj
  simp only [List.getElem_zipIdx, Nat.zero_add]
  rw [Int32.toInt_ofNat_of_lt (by omega), Int32.toInt_ofNat_of_lt (by omega)]
  omega

theorem map_parentOid_parentRows (c : ObjectId) :
    (parentRows content repo c).map ParentRow.parentOid =
      (content c).parents.map ObjectId.bytes := by
  have hfst := congrArg (List.map ObjectId.bytes) (List.zipIdx_map_fst 0 (content c).parents)
  rw [List.map_map] at hfst
  rw [← hfst, parentRows, List.map_map]
  rfl

def RefRow.objectId (row : RefRow) : ObjectId := (ObjectId.tryFrom row.oid).getD .null

def RefRow.info (row : RefRow) : RefInfo := ⟨row.name, row.objectId, none, none⟩

theorem foldlM_listRow (target : String) {rows : List RefRow}
    (h : ∀ row ∈ rows, row.oid.length = 20) (snapshot : RefsSnapshot) :
    rows.foldlM (listRow target) snapshot = .ok
      ⟨rows.foldl (fun head row => if row.name = target then some ⟨row.objectId, some target⟩ else head) snapshot.head,
        snapshot.refs ++ rows.map RefRow.info⟩ := by
  induction rows generalizing snapshot with
  | nil => simp [pure, Except.pure]
  | cons row rows ih =>
    have hoid : parseOid row.oid = .ok row.objectId := by
      rw [parseOid, RefRow.objectId, ObjectId.tryFrom, dif_pos (h row List.mem_cons_self), Option.getD_some]
    have hrest := ih (fun row' hrow' => h row' (List.mem_cons_of_mem _ hrow'))
    rw [List.foldlM_cons, listRow, hoid]
    refine (hrest _).trans ?_
    rw [List.foldl_cons, List.map_cons, List.append_assoc]
    rfl

theorem foldl_named {target : String} {rows : List RefRow} {value : Option HeadInfo}
    (h : ∀ row ∈ rows, row.name = target → some ⟨row.objectId, some target⟩ = value)
    (head : Option HeadInfo) :
    rows.foldl (fun head row => if row.name = target then some ⟨row.objectId, some target⟩
      else head) head =
      if ∃ row ∈ rows, row.name = target then value else head := by
  induction rows generalizing head with
  | nil => simp
  | cons row rows ih =>
    rw [List.foldl_cons, ih fun row' hrow' => h row' (List.mem_cons_of_mem _ hrow')]
    by_cases hname : row.name = target
    · rw [if_pos hname, h row List.mem_cons_self hname, ite_self, if_pos ⟨row, List.mem_cons_self, hname⟩]
    · simp [hname]

theorem HoldsRepo.refRow_iff (hintact : Intact content db) (h : HoldsRepo content db repo r)
    (name : String) (oid : ObjectId) :
    r.refs name = some oid ↔ ∃ row ∈ db.refs.rows, row.repoId = repo ∧ row.name = name ∧
      row.objectId = oid := by
  rw [← h.refs, refMap, Option.bind_eq_some_iff]
  constructor
  · rintro ⟨raw, hat, hoid⟩
    obtain ⟨row, hrow, rfl⟩ := Option.map_eq_some_iff.mp hat
    obtain ⟨hmem, hkey⟩ := Table.lookup_eq_some.mp hrow
    obtain ⟨hid, hname⟩ := Prod.mk.inj hkey
    exact ⟨row, hmem, hid, hname, by rw [RefRow.objectId, hoid, Option.getD_some]⟩
  · rintro ⟨row, hmem, rfl, rfl, rfl⟩
    refine ⟨row.oid, ?_, ?_⟩
    · rw [oidAt, Table.lookup_eq_some.mpr ⟨hmem, rfl⟩, Option.map_some]
    · rw [RefRow.objectId, ObjectId.tryFrom, dif_pos (hintact.refs row hmem), Option.getD_some]

theorem HoldsRepo.resolveRef_eq (hintact : Intact content db) (h : HoldsRepo content db repo r)
    (name : String) : resolveRef db repo name = .ok (r.refs name) := by
  have hat := represents_refMap hintact.refs repo name
  rw [h.refs] at hat
  rw [resolveRef, hat]
  cases r.refs name with
  | none => rfl
  | some oid =>
    rw [Option.map_some]
    simp only [parseOid_bytes]
    rfl

/-- **The listing has every ref once**, whatever the order of the rows. -/
theorem HoldsRepo.listRefs_ok {t : Tables} (hintact : Intact content t.toDb)
    (h : HoldsRepo content t.toDb repo r) (hheads : ∀ row ∈ t.repositories.rows, row.head = none) :
    ∃ snapshot, listRefs t repo = .ok snapshot ∧ r.Lists snapshot := by
  have htarget : ((t.repositories.rows.find? fun row => row.id = repo).bind RepoRow.head).getD "refs/heads/main"
      = Repository.mainBranch := by
    cases hrow : t.repositories.rows.find? fun row => row.id = repo with
    | none => rfl
    | some row => rw [Option.bind_some, hheads row (List.mem_of_find?_eq_some hrow),
      Option.getD_none, Repository.mainBranch]
  have hmem : ∀ row, row ∈ (t.refs.rows.filter fun row => row.repoId = repo) ↔ row ∈ t.refs.rows ∧
    row.repoId = repo := by simp
  refine ⟨_, by
    rw [listRefs, htarget, foldlM_listRow _ fun row hrow => hintact.refs row
      ((hmem row).mp hrow).1], ?_, fun info => ?_, ?_⟩
  · refine (t.refs.unique.of_map.filter _).map_on fun a ha b hb hinfo => ?_
    obtain ⟨ha, hida⟩ := (hmem a).mp ha
    obtain ⟨hb, hidb⟩ := (hmem b).mp hb
    exact t.refs.eq_of_key_eq ha hb (Prod.ext (hida.trans hidb.symm) (congrArg RefInfo.name hinfo))
  · rw [List.nil_append, List.mem_map, h.refRow_iff hintact]
    constructor
    · rintro ⟨row, hrow, rfl⟩
      obtain ⟨hrow, hid⟩ := (hmem row).mp hrow
      exact ⟨⟨row, hrow, hid, rfl, rfl⟩, rfl, rfl⟩
    · rintro ⟨⟨row, hrow, hid, hname, hoid⟩, hpeeled, hsymref⟩
      refine ⟨row, (hmem row).mpr ⟨hrow, hid⟩, ?_⟩
      rw [RefRow.info, hname, hoid, ← hpeeled, ← hsymref]
  · have hvalue : ∀ row ∈ t.refs.rows.filter (fun row => row.repoId = repo), row.name = Repository.mainBranch →
        some ⟨row.objectId, some Repository.mainBranch⟩ =
          (r.refs Repository.mainBranch).map fun oid => (⟨oid, some Repository.mainBranch⟩ : HeadInfo) := by
      intro row hrow hname
      obtain ⟨hrow, hid⟩ := (hmem row).mp hrow
      rw [(h.refRow_iff hintact _ _).mpr ⟨row, hrow, hid, hname, rfl⟩, Option.map_some]
    rw [foldl_named hvalue]
    split
    · rfl
    · rename_i hnone
      cases hmain : r.refs Repository.mainBranch with
      | none => rfl
      | some oid =>
        obtain ⟨row, hrow, hid, hname, -⟩ := (h.refRow_iff hintact _ _).mp hmain
        exact absurd ⟨row, (hmem row).mpr ⟨hrow, hid⟩, hname⟩ hnone

section Reads

variable (hfew : ∀ c, (content c).parents.length ≤ 65536)

include hfew

theorem fewParents : FewParents content := fun c => (hfew c).trans (by decide)

namespace HoldsRepo

theorem parents_perm (h : HoldsRepo content db repo r) (c : ObjectId) :
    (db.commitParents.rows.filter fun row => row.repoId = repo ∧ row.commitOid = c.bytes).Perm
      (if c ∈ r.objects then parentRows content repo c else []) := by
  have hnodup : (if c ∈ r.objects then parentRows content repo c else []).Nodup := by
    split
    · refine (parentRows_sorted (hfew c)).imp fun hlt heq => ?_
      rw [heq] at hlt
      exact lt_irrefl _ hlt
    · exact List.nodup_nil
  refine (List.perm_ext_iff_of_nodup (db.commitParents.unique.of_map.filter _) hnodup).mpr fun row => ?_
  have hcommit : ∀ c', row ∈ parentRows content repo c' → row.repoId = repo ∧ row.commitOid = c'.bytes := by
    intro c' hrow
    obtain ⟨parent, i, -, rfl⟩ := mem_parentRows.mp hrow
    exact ⟨rfl, rfl⟩
  rw [List.mem_filter, decide_eq_true_iff]
  constructor
  · rintro ⟨hrow, hid, hkey⟩
    obtain ⟨c', hc', hmem⟩ := (h.parentRow row hid).mp hrow
    obtain rfl := ObjectId.ext_bytes (hkey.symm.trans (hcommit c' hmem).2)
    rwa [if_pos hc']
  · intro hrow
    split at hrow
    · rename_i hc
      obtain ⟨hid, hkey⟩ := hcommit c hrow
      exact ⟨(h.parentRow row hid).mpr ⟨c, hc, hrow⟩, hid, hkey⟩
    · exact absurd hrow List.not_mem_nil

/-- **The parents are read in order.** -/
theorem fetchParents_eq (h : HoldsRepo content db repo r) (c : ObjectId) :
    fetchParents db repo c = .ok (r.parents content c) := by
  have hperm := (List.mergeSort_perm _ fun a b : ParentRow =>
    decide (a.position ≤ b.position)).trans (h.parents_perm hfew c)
  have hsorted : (if c ∈ r.objects then parentRows content repo c else []).Pairwise fun a b =>
      a.position ≤ b.position := by
    split
    · exact (parentRows_sorted (hfew c)).imp le_of_lt
    · exact List.Pairwise.nil
  have hmerged := @List.pairwise_mergeSort ParentRow (fun a b => decide (a.position ≤ b.position))
    (fun a b c hab hbc => by simp only [decide_eq_true_iff] at *; omega)
    (fun a b => by simp only [Bool.or_eq_true, decide_eq_true_iff]; omega)
    (db.commitParents.rows.filter fun row => row.repoId = repo ∧ row.commitOid = c.bytes)
  have hsame := @List.Perm.eq_of_pairwise ParentRow (fun a b => a.position ≤ b.position) _ _ ?_
    (hmerged.imp fun hle => by simpa using hle) hsorted hperm
  · rw [fetchParents, hsame, Repository.parents]
    split
    · rw [map_parentOid_parentRows, mapM_parseOid]
    · rfl
  · intro a b ha hb hab hba
    split at hb
    · rename_i hc
      have ha := hperm.mem_iff.mp ha
      rw [if_pos hc] at ha
      refine parentRows_unique (fewParents hfew) ha hb ?_
      obtain ⟨parent, i, -, rfl⟩ := mem_parentRows.mp ha
      obtain ⟨parent', j, -, rfl⟩ := mem_parentRows.mp hb
      simp only [Prod.mk.injEq, true_and]
      exact le_antisymm hab hba
    · exact absurd hb List.not_mem_nil

theorem parentsAre (h : HoldsRepo content db repo r) : ParentsAre db repo (r.parents content) :=
  parentsAre_of_fetchParents (h.fetchParents_eq hfew)

theorem holds (h : HoldsRepo content db repo r) {o : Objects} (hbacks : r.Backs content p o) :
    Holds content p o db repo where
  found {oid obj} hfind := by
    obtain ⟨hstored, hreads, -⟩ := hbacks.stored hfind
    exact ⟨objectRow content repo oid, (content oid).kind, by rw [h.object, if_pos hstored], rfl, hreads⟩
  parents c hc b := by rw [hbacks.parents_eq hc, h.parentsAre hfew]
  written c hc row hrow := by
    obtain ⟨obj, hobj⟩ := Option.ne_none_iff_exists'.mp hc
    obtain ⟨parent, i, -, rfl⟩ := mem_parentRows.mp hrow
    have hmem := (h.parentRow _ rfl).mpr ⟨c, (hbacks.stored hobj).1, hrow⟩
    rw [Table.lookup_eq_some.mpr ⟨hmem, rfl⟩]
    exact Option.some_ne_none _

end HoldsRepo

end Reads

theorem HoldsRepo.readObjectRaw_eq (h : HoldsRepo content db repo r) (oid : ObjectId) (cap : Nat) :
    readObjectRaw db repo oid cap = r.read content oid cap := by
  rw [readObjectRaw, h.object, Repository.read]
  by_cases hstored : oid ∈ r.objects
  · simp only [hstored, if_true, objectRow, true_and, ← Nat.not_lt]
    split_ifs <;> rfl
  · simp [hstored]

theorem kindInt_inj {kind kind' : ObjectType} : kindInt kind = kindInt kind' ↔ kind = kind' := by
  cases kind <;> cases kind' <;> decide

theorem HoldsRepo.readBlob_eq (h : HoldsRepo content db repo r) (oid : ObjectId) (cap : Nat) :
    readBlob db repo oid cap = if (content oid).kind = .blob then r.read content oid cap
      else none := by
  rw [readBlob, h.object, Repository.read]
  by_cases hstored : oid ∈ r.objects
  · by_cases hkind : (content oid).kind = .blob
    · simp only [hstored, if_true, objectRow, hkind, ne_eq, not_true_eq_false, false_or, true_and, ← Nat.not_lt]
      split_ifs <;> rfl
    · simp [hstored, objectRow, hkind, kindInt_inj]
  · simp [hstored]

theorem HoldsRepo.hasObject_eq (h : HoldsRepo content db repo r) (oid : ObjectId) :
    hasObject db repo oid = decide (oid ∈ r.objects) := by
  rw [hasObject, h.object]
  split <;> simp_all

theorem HoldsRepo.fetch_eq (h : HoldsRepo content db repo r) (oid : ObjectId) :
    fetchObject db repo oid =
    if oid ∈ r.objects then some ((content oid).kind, (content oid).data) else none := by
  rw [fetchObject, h.object]
  by_cases hstored : oid ∈ r.objects <;> simp [hstored, objectRow, kindOfInt_kindInt]

theorem HoldsRepo.readTree_eq (h : HoldsRepo content db repo r) (oid : ObjectId) :
    (readTree db repo oid).toOption = r.trees content oid := by
  rw [readTree, h.object, Repository.trees]
  by_cases hstored : oid ∈ r.objects
  · by_cases hkind : (content oid).kind = .tree
    · simp [hstored, objectRow, hkind, Except.toOption]
    · simp [hstored, objectRow, kindInt_inj, hkind, Except.toOption]
  · simp [hstored, Except.toOption]

/-- **An operation does what is specified**, and leaves the other repositories alone. -/
theorem HoldsRepo.runOperation {t : Tables} (hfew : ∀ c, (content c).parents.length ≤ 65536)
    (hacyclic : Acyclic fun c => (content c).parents) (hintact : Intact content t.toDb)
    (h : HoldsRepo content t.toDb repo r) (hheads : ∀ row ∈ t.repositories.rows, row.head = none)
    {dir : CacheDir}
    (hcaches : r.Caches content codec.parser (dir.files (UInt64.ofInt repo))
      (cacheKey codec.sha256 (UInt64.ofInt repo))) {op : Operation}
    (hadmits : r.Admits content codec op) :
    ∃ db' dir' reply enough, (∀ fuel, enough ≤ fuel →
        runOperation content codec cause fuel dir repo op t = ({ t with toDb := db' }, some (dir', reply))) ∧
      Moves content t.toDb db' repo (r.after op) ∧
      Repository.CacheMoves content codec dir dir' (UInt64.ofInt repo) (r.after op) ∧
        r.Replies content codec reply op := by
  have hstay := Moves.refl hintact h
  have hcache := Repository.CacheMoves.refl hcaches op
  cases op with
  | listRefs =>
    obtain ⟨snapshot, hlist, hlists⟩ := h.listRefs_ok hintact hheads
    exact ⟨t.toDb, dir, .refs snapshot, 0, fun _ _ => by
      rw [Sql.runOperation, hlist]; rfl, hstay, hcache, snapshot, rfl,
      hlists⟩
  | resolveRef refname =>
    refine ⟨t.toDb, dir, .ref (r.refs refname), 0, fun _ _ => ?_, hstay, hcache, rfl⟩
    rw [Sql.runOperation, h.resolveRef_eq hintact]
    rfl
  | updateRefs updates =>
    obtain ⟨hmoves, hyes, hno⟩ := h.updateRefs hintact hadmits.1 hadmits.2
    refine ⟨_, dir, .ofResult (fun _ => .done)
      ((updateRefsOwned t.toDb repo updates).2.mapError (UpdateRefsError.message cause)),
      0, fun _ _ => rfl, hmoves, hcache, .updateRefs (fun hall => ?_) fun hall => ?_⟩
    · rw [hyes hall]
      rfl
    · obtain ⟨e, he⟩ := hno hall
      rw [he]
      exact ⟨_, rfl⟩
  | hasObject oid =>
    refine ⟨t.toDb, dir, _, 0, fun _ _ => rfl, hstay, hcache, ?_⟩
    rw [Repository.Replies, h.hasObject_eq]
  | hasObjects oids =>
    refine ⟨t.toDb, dir, _, 0, fun _ _ => rfl, hstay, hcache, ?_⟩
    rw [Repository.Replies]
    exact congrArg Reply.found (List.map_congr_left fun oid _ => h.hasObject_eq oid)
  | readBlob oid cap =>
    exact ⟨t.toDb, dir, _, 0, fun _ _ => rfl, hstay, hcache, congrArg Reply.data (h.readBlob_eq oid cap)⟩
  | readObjectRaw oid cap =>
    exact ⟨t.toDb, dir, _, 0, fun _ _ => rfl, hstay, hcache, congrArg Reply.data (h.readObjectRaw_eq oid cap)⟩
  | readCommitInfo oid =>
    refine ⟨t.toDb, dir, _, 0, fun _ _ => rfl, hstay, hcache, ?_⟩
    rw [Repository.Replies, readCommitInfo, h.object]
    split
    · rename_i hstored
      simp [objectRow, hadmits hstored]
    · exact ⟨_, rfl⟩
  | ingestPack oids =>
    exact ⟨_, dir, _, 0, fun _ _ => rfl, h.ingestPack hintact (fewParents hfew) oids, hcache, rfl⟩
  | computePushKind oldOid newOid =>
    obtain ⟨kind, enough, htells, hrun⟩ :=
      (h.parentsAre hfew).computePushKind_tells (Repository.acyclic_parents hacyclic r) oldOid newOid
    refine ⟨t.toDb, dir, .kind kind, enough, fun fuel hfuel => ?_, hstay, hcache, kind, rfl, htells⟩
    rw [Sql.runOperation, hrun fuel hfuel, Option.map_some]
  | reachableExcluding tips excluding cap =>
    obtain ⟨R, hR⟩ := (h.parentsAre hfew).exists_finite
    obtain ⟨exclude, listed, enough, hw⟩ := exists_walked (fun c q hq => (hR c q hq).2) tips excluding
    obtain ⟨enough', hrun⟩ := reachableExcluding_eq (h.fetchParents_eq hfew) (Repository.acyclic_parents hacyclic r) hw
    refine ⟨t.toDb, dir, _, enough', fun fuel hfuel => ?_, hstay, hcache, exclude, listed, enough, hw, rfl⟩
    rw [Sql.runOperation, hrun fuel hfuel cap, Option.map_some]
  | buildPack request =>
    obtain ⟨dir', pack, enough, hrun, hmoves, hreply⟩ := hcaches.buildPack hadmits fun o ho =>
      ho.packObjects_ends ((h.holds hfew ho.1).selectObjects_ends ho.1.sealed ho.2.1 ho.2.2) fun _ => h.fetch_eq
    refine ⟨t.toDb, dir', .pack pack, enough, fun fuel hfuel => ?_, .refl hintact ⟨h.object, h.parentRow, h.refs⟩,
      hmoves, hreply⟩
    rw [Sql.runOperation, buildPack, hrun fuel hfuel]
    rfl
  | treeDiff parentTree childTree =>
    obtain ⟨result, enough, hrun, htells⟩ := treeDiff_tells h.readTree_eq
      (fun _ => Repository.mem_objects_of_trees) parentTree childTree
    refine ⟨t.toDb, dir, .ofResult .diff result, enough, fun fuel hfuel => ?_, hstay, hcache, result, rfl, htells⟩
    rw [Sql.runOperation, hrun fuel hfuel, Option.map_some]

/-! ### All repositories -/

def repoRow (i : Nat) (path : String) : RepoRow := ⟨i + 1, path, none⟩

variable (content) in
/-- The tables stand for the repositories, which were initialised in the order of `paths`. -/
structure Stands (t : Tables) (repos : Repositories) (paths : List String) : Prop where
  enumerates : Enumerates paths repos
  rows : t.repositories.rows = paths.mapIdx repoRow
  intact : Intact content t.toDb
  holds : ∀ i : Nat, HoldsRepo content t.toDb (i + 1) (repoAt repos paths i)

theorem nextRowid_eq {t : RepoTable} {paths : List String} (h : t.rows = paths.mapIdx repoRow) :
    nextRowid t = paths.length + 1 := by
  have hmax : ∀ paths : List String, ((paths.mapIdx repoRow).map RepoRow.id).foldl max 0 = paths.length := by
    intro paths
    induction paths using List.reverseRecOn with
    | nil => rfl
    | append_singleton paths path ih =>
      rw [List.mapIdx_concat, List.map_append, List.foldl_append, ih]
      simp [repoRow]
  rw [nextRowid, h, hmax]

variable {path : String}

namespace Stands

variable {t : Tables} {repos : Repositories} {paths : List String}

theorem lookup_eq (h : Stands content t repos paths) {i : Nat} (hi : paths[i]? = some path) :
    t.repositories.lookup path = some (repoRow i path) := by
  refine Table.lookup_eq_some.mpr ⟨?_, rfl⟩
  rw [h.rows]
  exact List.mem_of_getElem? (by rw [List.getElem?_mapIdx, hi, Option.map_some])

theorem lookup_eq_none (h : Stands content t repos paths) (hpath : repos path = none) :
    t.repositories.lookup path = none := by
  refine Table.lookup_eq_none.mpr fun row hrow hkey => ?_
  rw [h.rows] at hrow
  obtain ⟨i, hi, rfl⟩ := List.mem_mapIdx.mp hrow
  exact (h.enumerates.mem path).mpr (hkey ▸ List.getElem_mem hi) hpath

theorem heads (h : Stands content t repos paths) :
    ∀ row ∈ t.repositories.rows, row.head = none := by
  intro row hrow
  rw [h.rows] at hrow
  obtain ⟨i, -, rfl⟩ := List.mem_mapIdx.mp hrow
  rfl

theorem opened (h : Stands content t repos paths) {r : Repository} (hpath : repos path = some r) :
    ∃ i : Nat, paths[i]? = some path ∧ openRepo t.repositories path = .ok (i + 1) ∧
      HoldsRepo content t.toDb (i + 1) r := by
  obtain ⟨i, hi⟩ := List.mem_iff_getElem?.mp ((h.enumerates.mem path).mp (by simp [hpath]))
  have hholds := h.holds i
  rw [Enumerates.repoAt_eq hi hpath] at hholds
  refine ⟨i, hi, ?_, hholds⟩
  rw [openRepo, h.lookup_eq hi, repoRow]

theorem initRepo (h : Stands content t repos paths)
    (hroom : (Request.initRepo path).Admitted content codec repos) :
    ∃ paths', Stands content { t with repositories := initRepo t.repositories path }
      ((Request.initRepo path).after repos)
      paths' ∧ ∀ i, repoAt ((Request.initRepo path).after repos) paths' i = repoAt repos paths i := by
  cases hpath : repos path with
  | some r =>
    obtain ⟨i, hi⟩ := List.mem_iff_getElem?.mp ((h.enumerates.mem path).mp (by simp [hpath]))
    have hsame : Sql.initRepo t.repositories path = t.repositories :=
      Table.insertOrIgnore_of_taken (by rw [h.lookup_eq hi]; exact Option.some_ne_none _)
    refine ⟨paths, ?_⟩
    rw [hsame, Enumerates.initRepo_known (by simp [hpath])]
    exact ⟨h, fun _ => rfl⟩
  | none =>
    obtain ⟨henumerates, hrepoAt⟩ := h.enumerates.initRepo_new hpath hroom
    refine ⟨paths ++ [path], ⟨henumerates, ?_, h.intact, fun i => by rw [hrepoAt]; exact h.holds i⟩, hrepoAt⟩
    rw [List.mapIdx_concat, ← h.rows, repoRow, ← nextRowid_eq h.rows]
    exact Table.rows_insertOrIgnore_of_free (h.lookup_eq_none hpath)

theorem moves (h : Stands content t repos paths) {i : Nat} (hi : paths[i]? = some path)
    {r : Repository} (hr : repos path = some r) {op : Operation} {db' : Db}
    (hmoves : Moves content t.toDb db' (i + 1) (r.after op)) :
    Stands content { t with toDb := db' } ((Request.on path op).after repos) paths := by
  obtain ⟨henumerates, hrepoAt⟩ := h.enumerates.on hi hr op
  refine ⟨henumerates, h.rows, hmoves.intact, fun j => ?_⟩
  rw [hrepoAt]
  split
  · rename_i hj
    rw [hj]
    exact hmoves.holds
  · exact hmoves.frame (by omega) (h.holds j)

end Stands

theorem ofInt_succ (i : Nat) : UInt64.ofInt (i + 1) = idAt i := by
  have hmod : (((i : Int) + 1) % 2 ^ 64).toNat = (i + 1) % 2 ^ 64 := by omega
  rw [UInt64.ofInt, hmod, idAt]
  apply UInt64.toNat_inj.mp
  simp

/-- **The SQL backend does what is specified**, for any requests to any repositories. -/
theorem implements_spec (hfew : ∀ c, (content c).parents.length ≤ 65536)
    (hacyclic : Acyclic fun c => (content c).parents) :
    (serve content codec cause).Implements (spec content codec)
      (Backend.Stands content codec (Stands content)) := by
  refine implements_of (fun h => h.enumerates) ?_ ?_ ?_
  · intro t repos paths path h hroom
    exact ⟨rfl, h.initRepo hroom⟩
  · intro t repos paths path h hpath
    exact ⟨path.quote ++ " does not appear to be a git repository", by rw [openRepo, h.lookup_eq_none hpath]⟩
  · intro t repos paths path r h hpath
    obtain ⟨i, hi, hopen, hholds⟩ := h.opened hpath
    refine ⟨i, i + 1, hi, hopen, fun op dir hadmits hcaches => ?_⟩
    rw [← ofInt_succ] at hcaches ⊢
    obtain ⟨db', dir', reply, enough, hrun, hmoves, hcache, hreply⟩ :=
      hholds.runOperation hfew hacyclic h.intact h.heads hcaches hadmits
    exact ⟨_, dir', reply, enough, hrun, h.moves hi hpath hmoves, hcache, hreply⟩

end Mizzle.Sql
