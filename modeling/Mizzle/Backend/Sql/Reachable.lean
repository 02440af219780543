import Mizzle.Backend.Sql.Graph
import Mizzle.Backend.Types
import Mizzle.Lib.NodeWalk
import Mizzle.Lib.Outcome

/-!
# The bounded walk of the SQL backend

`reachable_excluding` of `mizzle/src/backend/sql/graph.rs`: the ancestors of the excluded oids are
collected with the recursive query, all its rows this time, then a breadth-first walk lists what the
tips reach beyond them. The walk gives up when it has listed `cap` commits and there is one more;
`cap` is `none` for `usize::MAX`, which no `Vec` of oids reaches. The text that the oid parser adds
to its error is left out.
-/

namespace Mizzle.Sql

open Lib

/-- `parse_oid`. -/
def parseOid (bytes : Bytes) : Except ReachableError ObjectId :=
  match ObjectId.tryFrom bytes with
  | some oid => .ok oid
  | none => .error (.other "corrupt OID in database")

/-- `SELECT parent_oid FROM commit_parents WHERE repo_id = ? AND commit_oid = ? ORDER BY position`,
parsed. -/
def fetchParents (db : Db) (repoDbId : Int) (oid : ObjectId) :
    Except ReachableError (List ObjectId) :=
  (((db.commitParents.rows.filter fun r => r.repoId = repoDbId ∧ r.commitOid = oid.bytes).mergeSort
    fun a b => a.position ≤ b.position).map ParentRow.parentOid).mapM parseOid

/-- `collect_ancestors`. -/
def collectAncestors (fuel : Nat) (db : Db) (repoDbId : Int) (set : Finset ObjectId)
    (oid : ObjectId) : Outcome ReachableError (Finset ObjectId) :=
  (rows (parentOids db repoDbId) fuel [oid.bytes]).map fun found => do
    let oids ← found.mapM parseOid
    return set ∪ oids.toFinset

/-- The test before the walk takes a commit. -/
def overCap (cap : Option Nat) (taken : List ObjectId) : Option ReachableError :=
  cap.bind fun limit => if limit ≤ taken.length then some (.capExceeded limit) else none

/-- `reachable_excluding`. -/
def reachableExcluding (fuel : Nat) (db : Db) (repoDbId : Int) (tips excluding : List ObjectId)
    (cap : Option Nat) : Outcome ReachableError (List ObjectId) := do
  if tips = [] then return []
  let exclude ← excluding.foldlM (collectAncestors fuel db repoDbId) ∅
  walkFrom (fetchParents db repoDbId) exclude (fun _ taken => overCap cap taken) fuel tips

/-! ### A database with a given parent graph -/

/-- The rows are those of the parent graph. -/
def ParentsAre (db : Db) (repoDbId : Int) (parents : ObjectId → List ObjectId) : Prop :=
  ∀ c b, b ∈ parentOids db repoDbId c.bytes ↔ ∃ q ∈ parents c, q.bytes = b

theorem parseOid_bytes (oid : ObjectId) : parseOid oid.bytes = .ok oid := by
  rw [parseOid, ObjectId.tryFrom_bytes]

theorem mapM_parseOid (oids : List ObjectId) :
    (oids.map ObjectId.bytes).mapM parseOid = .ok oids := by
  induction oids with
  | nil => rfl
  | cons oid oids ih =>
    rw [List.map_cons, List.mapM_cons, ih, parseOid_bytes]
    rfl

theorem exists_oids {found : List Bytes} (h : ∀ b ∈ found, ∃ oid : ObjectId, oid.bytes = b) :
    ∃ oids : List ObjectId, found = oids.map ObjectId.bytes := by
  induction found with
  | nil => exact ⟨[], rfl⟩
  | cons b found ih =>
    obtain ⟨oid, hoid⟩ := h b List.mem_cons_self
    obtain ⟨oids, hoids⟩ := ih fun b' hb' => h b' (List.mem_cons_of_mem _ hb')
    exact ⟨oid :: oids, by rw [List.map_cons, hoid, ← hoids]⟩

variable {db : Db} {repo : Int} {parents : ObjectId → List ObjectId}

/-- The rows of the keys that are oids; a query that starts from an oid comes to no other keys. -/
def oidParents (db : Db) (repoDbId : Int) (b : Bytes) : List Bytes :=
  if (ObjectId.tryFrom b).isSome then parentOids db repoDbId b else []

theorem oidParents_bytes (c : ObjectId) : oidParents db repo c.bytes = parentOids db repo c.bytes := by
  simp [oidParents]

theorem exists_oid_of_mem {b b' : Bytes} (h : b' ∈ oidParents db repo b) :
    ∃ c : ObjectId, c.bytes = b := by
  by_cases hlength : b.length = 20
  · exact ⟨⟨b, hlength⟩, rfl⟩
  · simp [oidParents, ObjectId.tryFrom, hlength] at h

variable {c : ObjectId} {b : Bytes} {R : Finset ObjectId}

namespace ParentsAre

theorem fetchParents_ok (h : ParentsAre db repo parents) (c : ObjectId) :
    ∃ ps, fetchParents db repo c = .ok ps ∧ ∀ q, q ∈ ps ↔ q ∈ parents c := by
  have hmem : ∀ b, b ∈ ((db.commitParents.rows.filter fun r => r.repoId = repo ∧ r.commitOid = c.bytes).mergeSort
      fun a b => a.position ≤ b.position).map ParentRow.parentOid ↔ ∃ q ∈ parents c, q.bytes = b := by
    intro b
    rw [← h c b, parentOids]
    simp only [List.mem_map, List.mem_mergeSort]
  obtain ⟨ps, hps⟩ := exists_oids fun b hb => by
    obtain ⟨q, -, hq⟩ := (hmem b).mp hb
    exact ⟨q, hq⟩
  refine ⟨ps, by rw [fetchParents, hps, mapM_parseOid], fun q => ?_⟩
  have hq := hmem q.bytes
  rw [hps] at hq
  constructor
  · intro hmem
    obtain ⟨q', hq', hbytes⟩ := hq.mp (List.mem_map_of_mem hmem)
    exact ObjectId.ext_bytes hbytes ▸ hq'
  · intro hmem
    obtain ⟨q', hq', hbytes⟩ := List.mem_map.mp (hq.mpr ⟨q, hmem, rfl⟩)
    exact ObjectId.ext_bytes hbytes ▸ hq'

theorem reach_iff (h : ParentsAre db repo parents) :
    Reach (parentOids db repo) [c.bytes] b ↔ ∃ x, Reach parents [c] x ∧ x.bytes = b := by
  simp only [reach_singleton]
  constructor
  · intro hpath
    induction hpath with
    | refl => exact ⟨c, .refl, rfl⟩
    | tail _ hedge ih =>
      obtain ⟨x, hx, rfl⟩ := ih
      obtain ⟨q, hq, hbytes⟩ := (h x _).mp hedge
      exact ⟨q, hx.tail hq, hbytes⟩
  · rintro ⟨x, hpath, rfl⟩
    induction hpath with
    | refl => exact .refl
    | tail _ hedge ih => exact ih.tail ((h _ _).mpr ⟨_, hedge, rfl⟩)

theorem mem_oidParents (h : ParentsAre db repo parents) :
    b ∈ oidParents db repo c.bytes ↔ ∃ q ∈ parents c, q.bytes = b := by
  rw [oidParents_bytes, h c b]

theorem transGen_oidParents (h : ParentsAre db repo parents)
    (hpath : Relation.TransGen (Edge (oidParents db repo)) c.bytes b) :
    ∃ x, Relation.TransGen (Edge parents) c x ∧ x.bytes = b := by
  induction hpath with
  | single hedge =>
    obtain ⟨q, hq, hbytes⟩ := h.mem_oidParents.mp hedge
    exact ⟨q, .single hq, hbytes⟩
  | tail _ hedge ih =>
    obtain ⟨x, hx, rfl⟩ := ih
    obtain ⟨q, hq, hbytes⟩ := h.mem_oidParents.mp hedge
    exact ⟨q, hx.tail hq, hbytes⟩

theorem exists_rows (h : ParentsAre db repo parents) (hacyclic : Acyclic parents)
    (hR : ∀ c q, q ∈ parents c → c ∈ R) :
    ∃ cost : Bytes → Nat, ∀ (c : ObjectId) (fuel : Nat), cost c.bytes ≤ fuel →
      ∃ found, rows (parentOids db repo) fuel [c.bytes] = some found := by
  have hfree : Acyclic (oidParents db repo) := by
    intro b hb
    obtain ⟨b', hedge, -⟩ := Relation.TransGen.head'_iff.mp hb
    obtain ⟨c, rfl⟩ := exists_oid_of_mem hedge
    obtain ⟨x, hx, hbytes⟩ := h.transGen_oidParents hb
    exact hacyclic c (ObjectId.ext_bytes hbytes ▸ hx)
  have hfinite : ∀ b b', b' ∈ oidParents db repo b → b ∈ R.image ObjectId.bytes := by
    intro b b' hb
    obtain ⟨c, rfl⟩ := exists_oid_of_mem hb
    obtain ⟨q, hq, -⟩ := h.mem_oidParents.mp hb
    exact Finset.mem_image_of_mem _ (hR c q hq)
  obtain ⟨cost, hcost⟩ := exists_cost (wellFounded_of_acyclic hfree hfinite)
  refine ⟨cost, fun c fuel hfuel => ?_⟩
  obtain ⟨found, hfound⟩ := rows_answers hcost (by simpa using hfuel : ([c.bytes].map cost).sum ≤ fuel)
  have hsame : ∀ b, (∃ c : ObjectId, c.bytes = b) → parentOids db repo b = oidParents db repo b := by
    rintro b ⟨c, rfl⟩
    exact (oidParents_bytes c).symm
  refine ⟨found, hfound ▸ rows_congr hsame ?_ fuel ?_⟩
  · rintro b ⟨c, rfl⟩ b' hb'
    obtain ⟨q, -, hbytes⟩ := (h c b').mp hb'
    exact ⟨q, hbytes⟩
  · rintro b hb
    exact ⟨c, (List.mem_singleton.mp hb).symm⟩

theorem collectAncestors_done (h : ParentsAre db repo parents) {fuel : Nat} {found : List Bytes}
    (hrows : rows (parentOids db repo) fuel [c.bytes] = some found) (set : Finset ObjectId) :
    ∃ set', collectAncestors fuel db repo set c = Outcome.done set' ∧ ∀ x, x ∈ set' ↔ x ∈ set ∨
      Reach parents [c] x := by
  have hmem : ∀ b, b ∈ found ↔ ∃ x, Reach parents [c] x ∧ x.bytes = b := fun b => (mem_rows hrows b).trans h.reach_iff
  obtain ⟨oids, rfl⟩ := exists_oids fun b hb => by
    obtain ⟨x, -, hx⟩ := (hmem b).mp hb
    exact ⟨x, hx⟩
  refine ⟨set ∪ oids.toFinset, ?_, fun x => ?_⟩
  · rw [collectAncestors, hrows, Option.map_some, mapM_parseOid]
    rfl
  · rw [Finset.mem_union, List.mem_toFinset]
    refine or_congr_right ⟨fun hx => ?_, fun hx => ?_⟩
    · obtain ⟨y, hy, hbytes⟩ := (hmem x.bytes).mp (List.mem_map_of_mem hx)
      exact ObjectId.ext_bytes hbytes ▸ hy
    · obtain ⟨y, hy, hbytes⟩ := List.mem_map.mp ((hmem x.bytes).mpr ⟨x, hx, rfl⟩)
      exact ObjectId.ext_bytes hbytes ▸ hy

theorem collectAll_done (h : ParentsAre db repo parents) {fuel : Nat} {excluding : List ObjectId}
    (hrows : ∀ c ∈ excluding, ∃ found, rows (parentOids db repo) fuel [c.bytes] = some found)
    (set : Finset ObjectId) :
    ∃ set', excluding.foldlM (collectAncestors fuel db repo) set = Outcome.done set' ∧
      ∀ x, x ∈ set' ↔ x ∈ set ∨ Reach parents excluding x := by
  induction excluding generalizing set with
  | nil => exact ⟨set, rfl, fun x => by simp⟩
  | cons c excluding ih =>
    obtain ⟨found, hfound⟩ := hrows c List.mem_cons_self
    obtain ⟨middle, hstep, hmiddle⟩ := h.collectAncestors_done hfound set
    obtain ⟨set', hloop, hset'⟩ := ih (fun c' hc' => hrows c' (List.mem_cons_of_mem _ hc')) middle
    refine ⟨set', by rw [List.foldlM_cons, Outcome.bind_of_done hstep, hloop], fun x => ?_⟩
    have hsplit : Reach parents (c :: excluding) x ↔ Reach parents [c] x ∨ Reach parents excluding x :=
      @reach_append _ parents [c] excluding x
    rw [hset', hmiddle, hsplit, or_assoc]

theorem collectAll_ends (h : ParentsAre db repo parents) (hacyclic : Acyclic parents)
    (hR : ∀ c q, q ∈ parents c → c ∈ R) (excluding : List ObjectId) :
    Outcome.Ends (fun fuel => excluding.foldlM (collectAncestors fuel db repo) ∅)
      fun exclude => ∀ x, x ∈ exclude ↔ Reach parents excluding x := by
  obtain ⟨cost, hcost⟩ := h.exists_rows hacyclic hR
  refine ⟨(excluding.map fun c => cost c.bytes).sum, fun fuel hfuel => ?_⟩
  have hrows : ∀ c ∈ excluding, ∃ found, rows (parentOids db repo) fuel [c.bytes] = some found := fun c hc => by
    have hone : cost c.bytes ≤ (excluding.map fun c => cost c.bytes).sum :=
      List.single_le_sum (fun _ _ => Nat.zero_le _) _ (List.mem_map_of_mem hc)
    exact hcost c fuel (hone.trans hfuel)
  obtain ⟨exclude, hexclude, hmem⟩ := h.collectAll_done hrows ∅
  exact ⟨exclude, hexclude, fun x => by simp [hmem]⟩

/-- **The walk lists what the tips reach and the excluded oids do not**, on a finite graph without
cycles. -/
theorem reachableExcluding_done (h : ParentsAre db repo parents) (hacyclic : Acyclic parents)
    (hR : ∀ c q, q ∈ parents c → c ∈ R ∧ q ∈ R) (tips excluding : List ObjectId) :
    ∃ enough, ∀ fuel, enough ≤ fuel → ∃ oids, reachableExcluding fuel db repo tips excluding none =
      Outcome.done oids ∧
      ∀ x, x ∈ oids ↔ Reach parents tips x ∧ ¬ Reach parents excluding x := by
  obtain ⟨enough, hcollect⟩ := h.collectAll_ends hacyclic (fun c q hq => (hR c q hq).1) excluding
  refine ⟨enough + (R ∪ tips.toFinset).card, fun fuel hfuel => ?_⟩
  rw [reachableExcluding]
  split
  · rename_i hnil
    exact ⟨[], rfl, fun x => by simp [hnil]⟩
  · obtain ⟨exclude, hexclude, hmem⟩ := hcollect fuel (by omega)
    have hclosed : ClosedNodes (fetchParents db repo) (R ∪ tips.toFinset) := by
      intro c _
      obtain ⟨ps, hps, hmem⟩ := h.fetchParents_ok c
      exact ⟨ps, hps, fun q hq => Finset.mem_union_left _ (hR c q ((hmem q).mp hq)).2⟩
    have hsame : ∀ c q, q ∈ okOrNil (fetchParents db repo) c ↔ q ∈ parents c := by
      intro c q
      obtain ⟨ps, hps, hmem⟩ := h.fetchParents_ok c
      rw [okOrNil, hps]
      exact hmem q
    have hwalk : ∃ oids, walkFrom (fetchParents db repo) exclude (fun _ taken => overCap none taken) fuel tips
        = some (.ok oids) :=
      walkFrom_answers (fun _ _ => rfl) hclosed exclude (by omega) fun x hx =>
        Finset.mem_union_right _ (List.mem_toFinset.mpr hx)
    obtain ⟨oids, hwalk⟩ := hwalk
    refine ⟨oids, ?_, fun x => ?_⟩
    · rw [Outcome.bind_of_done hexclude]
      exact hwalk
    · rw [mem_walkFrom hwalk, reach_congr hsame, hmem]
      intro c hc q hq
      rw [hmem] at hc ⊢
      exact reach_step hc ((hsame c q).mp hq)

end ParentsAre

end Mizzle.Sql
