import Mizzle.Backend.Walks
import Mizzle.Lib.Rows
import Mizzle.Proto.Receive

/-!
# Ancestry in the two databases

`compute_push_kind` asks whether the old commit is an ancestor of the new one. The SQL backend reads
the rows of a recursive query, the KV backend searches with a set of visited commits; both come to
the ancestors, so they classify alike and as the preliminary kind has it, but for the fast-forwards
that turn out to be force pushes (`pushKind_exact`).

The recursive query is written with `UNION ALL`: an ancestor has a row for every way to it, and one
row only where the history is without merges of what was branched (`rows_once_iff`).
`collect_ancestors` reads all these rows.
-/

namespace Mizzle

open Lib

variable {parents : ObjectId → List ObjectId}

/-! ### The push kind -/

/-- The commit itself or a proper ancestor. -/
def IsAncestor (parents : ObjectId → List ObjectId) (old new : ObjectId) : Prop :=
  old = new ∨ Relation.TransGen (Edge parents) new old

theorem isAncestor_iff_reach {old new : ObjectId} :
    IsAncestor parents old new ↔ Reach parents [new] old := by
  rw [reach_singleton, Relation.reflTransGen_iff_eq_or_transGen, IsAncestor]

/-- What a push kind says. -/
structure KindTells (parents : ObjectId → List ObjectId) (old new : ObjectId) (kind : PushKind) :
    Prop where
  create : kind = .create ↔ old = .null
  delete : kind = .delete ↔ old ≠ .null ∧ new = .null
  fastForward : kind = .fastForward ↔ old ≠ .null ∧ new ≠ .null ∧ IsAncestor parents old new
  forcePush : kind = .forcePush ↔ old ≠ .null ∧ new ≠ .null ∧ ¬ IsAncestor parents old new

theorem kindTells_classify {old new : ObjectId} {b : Bool}
    (hb : old ≠ .null → new ≠ .null → (b = true ↔ IsAncestor parents old new)) :
    KindTells parents old new (.classify old new b) := by
  by_cases hold : old = .null
  · rw [PushKind.classify_of_old_null hold]
    constructor <;> simp [hold]
  · by_cases hnew : new = .null
    · rw [PushKind.classify_of_new_null hold hnew]
      constructor <;> simp [hold, hnew]
    · have hancestor := hb hold hnew
      rw [PushKind.classify_of_ne hold hnew]
      cases b with
      | true => constructor <;> simp [hold, hnew, ← hancestor]
      | false => constructor <;> simp [hold, hnew, ← hancestor]

theorem KindTells.unique {old new : ObjectId} {kind kind' : PushKind}
    (h : KindTells parents old new kind) (h' : KindTells parents old new kind') : kind = kind' := by
  cases kind with
  | create => exact (h'.create.mpr (h.create.mp rfl)).symm
  | delete => exact (h'.delete.mpr (h.delete.mp rfl)).symm
  | fastForward => exact (h'.fastForward.mpr (h.fastForward.mp rfl)).symm
  | forcePush => exact (h'.forcePush.mpr (h.forcePush.mp rfl)).symm

theorem Sql.ParentsAre.exists_ancestors {db : Sql.Db} {repo : Int}
    (h : Sql.ParentsAre db repo parents) (hacyclic : Acyclic parents) (c : ObjectId) :
    ∃ found enough, (∀ fuel, enough ≤ fuel →
      rows (Sql.parentOids db repo) fuel [c.bytes] = some found) ∧
      ∀ x : ObjectId, x.bytes ∈ found ↔ IsAncestor parents x c := by
  obtain ⟨R, hR⟩ := h.exists_finite
  obtain ⟨cost, hcost⟩ := h.exists_rows hacyclic fun c q hq => (hR c q hq).1
  obtain ⟨found, hfound⟩ := hcost c _ le_rfl
  refine ⟨found, cost c.bytes, fun fuel hfuel => rows_mono hfuel hfound, fun x => ?_⟩
  rw [mem_rows hfound, h.reach_iff, isAncestor_iff_reach]
  exact ⟨fun ⟨y, hy, hbytes⟩ => ObjectId.ext_bytes hbytes ▸ hy, fun hx => ⟨x, hx, rfl⟩⟩

theorem Sql.ParentsAre.computePushKind_tells {db : Sql.Db} {repo : Int}
    (h : Sql.ParentsAre db repo parents) (hacyclic : Acyclic parents) (old new : ObjectId) :
    ∃ kind enough, KindTells parents old new kind ∧
      ∀ fuel, enough ≤ fuel → Sql.computePushKind fuel db repo old new = some kind := by
  obtain ⟨found, enough, hrows, hmem⟩ := h.exists_ancestors hacyclic new
  by_cases hnull : old.isNull ∨ new.isNull
  · refine ⟨_, 0, kindTells_classify fun hold hnew => ?_, fun fuel _ => if_pos hnull⟩
    simp [hold, hnew] at hnull
  · refine ⟨.classify old new (decide (old.bytes ∈ found)), enough, kindTells_classify
      fun _ _ => ?_, fun fuel hfuel => ?_⟩
    · rw [decide_eq_true_iff, hmem]
    · rw [Sql.computePushKind, if_neg hnull, Sql.isAncestor, enumerate_of_rows (hrows fuel hfuel) decide_eq_true_iff,
        Option.map_some]

theorem Kv.ParentsAre.computePushKind_tells {s : Kv.Store} {repo : UInt64}
    (h : Kv.ParentsAre s repo parents) (old new : ObjectId) :
    KindTells parents old new (Kv.computePushKind s repo old new) := by
  have hreach : Reach (Kv.parents s repo) [new] old ↔ IsAncestor parents old new := by
    rw [isAncestor_iff_reach]
    refine reach_congr fun c q => ?_
    obtain ⟨ps, hps, hmem⟩ := h c
    rw [Kv.parents, okOrNil_ok hps, hmem]
  refine kindTells_classify fun _ _ => ?_
  rw [← hreach]
  cases hanswer : Kv.isAncestor s repo old new with
  | ok b =>
    cases b with
    | true => exact iff_of_true rfl (Kv.isAncestor_true hanswer)
    | false => exact iff_of_false Bool.false_ne_true (Kv.isAncestor_false hanswer)
  | error e =>
    -- no lookup fails
    rw [Kv.isAncestor] at hanswer
    split at hanswer
    · cases hanswer
    · obtain ⟨r, hr⟩ := Option.ne_none_iff_exists'.mp (Kv.isAncestor_answers s repo old new)
      rw [hr, Option.getD_some] at hanswer
      obtain ⟨c, hc⟩ := search_error (hr.trans (congrArg some hanswer))
      obtain ⟨ps, hps, -⟩ := h c
      rw [hps] at hc
      cases hc

theorem KindTells.preliminary {u : RefUpdate} {kind : PushKind}
    (h : KindTells parents u.oldOid u.newOid kind) :
    kind = Receive.preliminaryPushKind u ∨ Receive.preliminaryPushKind u = .fastForward ∧ kind =
      .forcePush := by
  rw [Receive.preliminaryPushKind]
  split_ifs with hold hnew
  · exact Or.inl (h.create.mpr (by simpa using hold))
  · exact Or.inl (h.delete.mpr ⟨by simpa using hold, by simpa using hnew⟩)
  · have hold : u.oldOid ≠ .null := by simpa using hold
    have hnew : u.newOid ≠ .null := by simpa using hnew
    by_cases hancestor : IsAncestor parents u.oldOid u.newOid
    · exact Or.inl (h.fastForward.mpr ⟨hold, hnew, hancestor⟩)
    · exact Or.inr ⟨rfl, h.forcePush.mpr ⟨hold, hnew, hancestor⟩⟩

/-- **The two backends classify a push alike and exactly**, and the preliminary kind is at most too
optimistic. -/
theorem pushKind_exact {db : Sql.Db} {repoDbId : Int} {s : Kv.Store} {repoId : UInt64}
    (hsql : Sql.ParentsAre db repoDbId parents) (hkv : Kv.ParentsAre s repoId parents)
    (hacyclic : Acyclic parents) (u : RefUpdate) :
    ∃ kind enough, (∀ fuel, enough ≤ fuel →
      Sql.computePushKind fuel db repoDbId u.oldOid u.newOid = some kind) ∧
      Kv.computePushKind s repoId u.oldOid u.newOid = kind ∧ KindTells parents u.oldOid u.newOid kind ∧
      (kind = Receive.preliminaryPushKind u ∨ Receive.preliminaryPushKind u = .fastForward ∧ kind = .forcePush) := by
  obtain ⟨kind, enough, htells, hrun⟩ := hsql.computePushKind_tells hacyclic u.oldOid u.newOid
  exact ⟨kind, enough, hrun, (hkv.computePushKind_tells u.oldOid u.newOid).unique htells, htells, htells.preliminary⟩

theorem parentsAre_rowTables : Sql.ParentsAre rowTables 1 rowParents :=
  Sql.parentsAre_of_fetchParents fetchParents_rowTables

theorem parentsAre_rowKeys : Kv.ParentsAre rowKeys 1 rowParents :=
  fun c => ⟨_, fetchParents_rowKeys c, fun _ => Iff.rfl⟩

theorem pushKind_exact_row :
    ∃ kind enough, (∀ fuel, enough ≤ fuel →
      Sql.computePushKind fuel rowTables 1 (.fill 1) (.fill 3) = some kind) ∧
      Kv.computePushKind rowKeys 1 (.fill 1) (.fill 3) = kind ∧ KindTells rowParents (.fill 1) (.fill 3) kind ∧
      (kind = .fastForward ∨ PushKind.fastForward = .fastForward ∧ kind = .forcePush) :=
  pushKind_exact parentsAre_rowTables parentsAre_rowKeys acyclic_rowParents ⟨.fill 1, .fill 3, "refs/heads/main"⟩

/-! ### The rows of the recursive query -/

/-- A history in which no commit is named twice as a parent: by two commits, or twice by one. -/
def SingleHistory (parents : ObjectId → List ObjectId) (c : ObjectId) : Prop :=
  (∀ x, IsAncestor parents x c → (parents x).Nodup) ∧
    ∀ x y, IsAncestor parents x c → IsAncestor parents y c → x ≠ y → ∀ p ∈ parents x, p ∉ parents y

variable {db : Sql.Db} {repo : Int}

theorem singleWays_iff (h : ∀ c, Sql.fetchParents db repo c = .ok (parents c)) (c : ObjectId) :
    SingleWays (Sql.parentOids db repo) c.bytes ↔ SingleHistory parents c := by
  have hare := Sql.parentsAre_of_fetchParents h
  have hnodup : ∀ x : ObjectId, (Sql.parentOids db repo x.bytes).Nodup ↔ (parents x).Nodup := fun x => by
    rw [(Sql.parentOids_perm h x).nodup_iff, List.nodup_map_iff fun _ _ => ObjectId.ext_bytes]
  have hreach : ∀ x : ObjectId, Reach (Sql.parentOids db repo) [c.bytes] x.bytes ↔
      IsAncestor parents x c := fun x => by
    rw [hare.reach_iff, isAncestor_iff_reach]
    exact ⟨fun ⟨y, hy, hbytes⟩ => ObjectId.ext_bytes hbytes ▸ hy, fun hx => ⟨x, hx, rfl⟩⟩
  have hmem : ∀ x p : ObjectId, p.bytes ∈ Sql.parentOids db repo x.bytes ↔ p ∈ parents x := fun x p => by
    rw [hare x p.bytes]
    exact ⟨fun ⟨q, hq, hbytes⟩ => ObjectId.ext_bytes hbytes ▸ hq, fun hp => ⟨p, hp, rfl⟩⟩
  constructor
  · rintro ⟨hone, hdisjoint⟩
    refine ⟨fun x hx => (hnodup x).mp (hone _ ((hreach x).mpr hx)), fun x y hx hy hne p hpx hpy => ?_⟩
    exact hdisjoint _ _ ((hreach x).mpr hx) ((hreach y).mpr hy) (fun heq => hne (ObjectId.ext_bytes heq)) p.bytes
      ((hmem x p).mpr hpx) ((hmem y p).mpr hpy)
  · rintro ⟨hone, hdisjoint⟩
    have hoid : ∀ b, Reach (Sql.parentOids db repo) [c.bytes] b → ∃ x : ObjectId, x.bytes = b := fun b hb => by
      obtain ⟨x, -, hbytes⟩ := hare.reach_iff.mp hb
      exact ⟨x, hbytes⟩
    refine ⟨fun b hb => ?_, fun b b' hb hb' hne p hp hp' => ?_⟩
    · obtain ⟨x, rfl⟩ := hoid b hb
      exact (hnodup x).mpr (hone x ((hreach x).mp hb))
    · obtain ⟨x, rfl⟩ := hoid b hb
      obtain ⟨y, rfl⟩ := hoid b' hb'
      obtain ⟨q, hq, rfl⟩ := (hare x p).mp hp
      exact hdisjoint x y ((hreach x).mp hb) ((hreach y).mp hb') (fun heq => hne (heq ▸ rfl)) q hq ((hmem y q).mp hp')

/-- **When the recursive query has one row for each ancestor.** The query of `is_ancestor` has the
same rows. -/
theorem rows_once_iff (h : ∀ c, Sql.fetchParents db repo c = .ok (parents c))
    (hacyclic : Acyclic parents) (c : ObjectId) :
    ∃ found enough, (∀ fuel, enough ≤ fuel →
      rows (Sql.parentOids db repo) fuel [c.bytes] = some found ∧
        ∀ old : ObjectId, Sql.isAncestor fuel db repo old c = some (decide (old.bytes ∈ found))) ∧
      (∀ x : ObjectId, x.bytes ∈ found ↔ IsAncestor parents x c) ∧
      (found.Nodup ∧ found.length = {x | IsAncestor parents x c}.ncard ↔ SingleHistory parents c) := by
  have hare := Sql.parentsAre_of_fetchParents h
  obtain ⟨found, enough, hrows, hmem⟩ := hare.exists_ancestors hacyclic c
  have hcycle : ¬ Relation.TransGen (Edge (Sql.parentOids db repo)) c.bytes c.bytes := by
    intro hpath
    obtain ⟨b, hedge, hpath⟩ := Relation.TransGen.head'_iff.mp hpath
    obtain ⟨q, hq, rfl⟩ := (hare c b).mp hedge
    obtain ⟨x, hx, hbytes⟩ := hare.reach_iff.mp (reach_singleton.mpr hpath)
    obtain rfl := ObjectId.ext_bytes hbytes
    exact hacyclic x (.head' hq (reach_singleton.mp hx))
  have hfound := hrows enough le_rfl
  refine ⟨found, enough, fun fuel hfuel => ⟨hrows fuel hfuel, fun old => ?_⟩, hmem, ?_⟩
  · exact enumerate_of_rows (hrows fuel hfuel) decide_eq_true_iff
  · rw [← singleWays_iff h, ← nodup_rows_iff hcycle hfound, and_iff_left_iff_imp]
    intro hnodup
    have himage : ObjectId.bytes '' {x | IsAncestor parents x c} = {b | b ∈ found} := by
      ext b
      constructor
      · rintro ⟨x, hx, rfl⟩
        exact (hmem x).mpr hx
      · intro hb
        obtain ⟨x, hx, rfl⟩ := hare.reach_iff.mp ((mem_rows hfound b).mp hb)
        exact ⟨x, isAncestor_iff_reach.mpr hx, rfl⟩
    rw [← Set.ncard_image_of_injective _ fun _ _ => ObjectId.ext_bytes, himage, ← List.coe_toFinset,
      Set.ncard_coe_finset,
      List.toFinset_card_of_nodup hnodup]

theorem rows_once_row :
    ∃ found enough, (∀ fuel, enough ≤ fuel →
      rows (Sql.parentOids rowTables 1) fuel [(ObjectId.fill 3).bytes] = some found ∧
        ∀ old : ObjectId, Sql.isAncestor fuel rowTables 1 old (.fill 3) = some (decide (old.bytes ∈ found))) ∧
      (∀ x : ObjectId, x.bytes ∈ found ↔ IsAncestor rowParents x (.fill 3)) ∧
      (found.Nodup ∧ found.length = {x | IsAncestor rowParents x (.fill 3)}.ncard ↔
        SingleHistory rowParents (.fill 3)) :=
  rows_once_iff fetchParents_rowTables acyclic_rowParents (.fill 3)

/-- A branch and its merge. -/
def mergeContent (oid : ObjectId) : ObjectContent :=
  ⟨.commit, [], if oid = .fill 4 then [.fill 2, .fill 3] else if oid = .fill 3 ∨ oid = .fill 2 then [.fill 1] else []⟩

def mergeTables : Sql.Db :=
  Sql.ingestPack mergeContent ⟨Lib.Table.empty, Lib.Table.empty, Lib.Table.empty⟩ 1 [.fill 1,
    .fill 2, .fill 3, .fill 4]

/-- Four commits, of which the first has two rows. -/
theorem rows_twice :
    ∃ found, rows (Sql.parentOids mergeTables 1) 5 [(ObjectId.fill 4).bytes] = some found ∧
      found.count (ObjectId.fill 1).bytes = 2 ∧ ¬ found.Nodup := by
  refine ⟨[(ObjectId.fill 4).bytes, (ObjectId.fill 2).bytes, (ObjectId.fill 3).bytes, (ObjectId.fill 1).bytes,
    (ObjectId.fill 1).bytes], ?_, ?_, ?_⟩
  · decide +kernel
  · decide +kernel
  · decide +kernel

end Mizzle
