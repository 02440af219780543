import Mizzle.Backend.Kv.ParentKeys
import Mizzle.Backend.Kv.Reachable
import Mizzle.Backend.Sql.Objects
import Mizzle.Backend.Sql.Reachable
import Mizzle.Lib.BoundedWalk
import Mizzle.Lib.Traverse

/-!
# The bounded walks of the two databases

`reachable_excluding` of the SQL and of the KV backend over one parent graph. Both list what the
walk of `Mizzle.Lib.NodeWalk` lists in its two passes (`Walked`), and differ in what the cap is
compared with: SQL with the length of the list, KV with the number of excluded commits too
(`Sql.reachableExcluding_eq`, `Kv.reachableExcluding_eq`).

So both are exact where they answer (`walks_exact`), and they answer alike exactly if the excluded
commits are within the cap or the list is beyond it (`caps_agree_iff`). The trait documents the
order of the list as parent-first; it is the order of a breadth-first search from the children,
which has that property only for lists of tips (`walks_parentFirst_iff`).
-/

namespace Mizzle

open Lib

/-- The outcome of a walk that lists `l`, under a cap on `n`. -/
def withinCap (cap : Option Nat) (n : Nat) (l : List ObjectId) :
    Except ReachableError (List ObjectId) :=
  match cap with
  | none => .ok l
  | some limit => if n ≤ limit then .ok l else .error (.capExceeded limit)

/-- The lookup of a parent graph, which does not fail. -/
def lookup (parents : ObjectId → List ObjectId) (c : ObjectId) :
    Except ReachableError (List ObjectId) := .ok (parents c)

/-- The walk without a cap: the excluded commits and the list, from some fuel on. -/
structure Walked (parents : ObjectId → List ObjectId) (tips excluding : List ObjectId)
    (exclude : Finset ObjectId) (listed : List ObjectId) (enough : Nat) : Prop where
  mem_exclude : ∀ x, x ∈ exclude ↔ Reach parents excluding x
  mark : ∀ fuel, enough ≤ fuel →
    excluding.foldlM (m := Outcome ReachableError) (markFrom (lookup parents) never fuel) ∅ = Outcome.done exclude
  walk : ∀ fuel, enough ≤ fuel → walkFrom (lookup parents) exclude never fuel tips = some (.ok listed)

variable {parents : ObjectId → List ObjectId} {tips excluding listed : List ObjectId}
  {exclude : Finset ObjectId} {enough : Nat}

theorem okOrNil_lookup : okOrNil (lookup parents) = parents := rfl

theorem exists_walked {R : Finset ObjectId} (hR : ∀ c q, q ∈ parents c → q ∈ R)
    (tips excluding : List ObjectId) :
    ∃ exclude listed enough, Walked parents tips excluding exclude listed enough := by
  have hclosed : ClosedNodes (lookup parents) (R ∪ (tips.toFinset ∪ excluding.toFinset)) := fun c _ =>
    ⟨parents c, rfl, fun q hq => Finset.mem_union_left _ (hR c q hq)⟩
  have hmark : ∀ {fuel}, (R ∪ (tips.toFinset ∪ excluding.toFinset)).card ≤ fuel →
      ∃ exclude, excluding.foldlM (m :=
        Outcome ReachableError) (markFrom (lookup parents) never fuel) ∅ = Outcome.done exclude ∧
        ∀ x, x ∈ exclude ↔ x ∈ (∅ : Finset ObjectId) ∨ Reach parents excluding x := fun hfuel =>
    foldlM_markFrom_done (fun _ _ => rfl) hclosed hfuel (fun x hx => by simp [hx])
      (fun x hx => absurd hx (Finset.notMem_empty x))
  obtain ⟨exclude, -, hmem⟩ := hmark le_rfl
  obtain ⟨listed, hlisted⟩ := @walkFrom_answers _ _ _ never _ (fun _ _ => rfl) _ hclosed exclude _ le_rfl tips
    fun x hx => by simp [hx]
  refine ⟨exclude, listed, (R ∪ (tips.toFinset ∪ excluding.toFinset)).card, fun x => by
    simp [hmem], fun fuel hfuel => ?_,
    fun fuel hfuel => walkFrom_mono hfuel hlisted⟩
  obtain ⟨exclude', hexclude', hmem'⟩ := hmark hfuel
  rw [hexclude', Finset.ext fun x => (hmem' x).trans (hmem x).symm]

namespace Walked

theorem mem_listed (h : Walked parents tips excluding exclude listed enough) (x : ObjectId) :
    x ∈ listed ↔ Reach parents tips x ∧ ¬ Reach parents excluding x := by
  rw [mem_walkFrom (h.walk enough le_rfl), okOrNil_lookup, h.mem_exclude]
  exact fun y hy z hz => (h.mem_exclude z).mpr (reach_step ((h.mem_exclude y).mp hy) hz)

theorem nodup (h : Walked parents tips excluding exclude listed enough) : listed.Nodup :=
  walkFrom_nodup (h.walk enough le_rfl)

theorem listed_eq_nil (h : Walked parents [] excluding exclude listed enough) : listed = [] :=
  List.eq_nil_iff_forall_not_mem.mpr fun x hx => reach_nil ((h.mem_listed x).mp hx).1

theorem ncard_listed (h : Walked parents tips excluding exclude listed enough) :
    {x | Reach parents tips x ∧ ¬ Reach parents excluding x}.ncard = listed.length := by
  have hset : {x | Reach parents tips x ∧ ¬ Reach parents excluding x} = ↑listed.toFinset := by
    ext x
    simp [h.mem_listed]
  rw [hset, Set.ncard_coe_finset, List.toFinset_card_of_nodup h.nodup]

theorem ncard_exclude (h : Walked parents tips excluding exclude listed enough) :
    {x | Reach parents excluding x}.ncard = exclude.card := by
  have hset : {x | Reach parents excluding x} = ↑exclude := by
    ext x
    simp [h.mem_exclude]
  rw [hset, Set.ncard_coe_finset]

end Walked

/-! ### The SQL backend -/

namespace Sql

variable {db : Db} {repo : Int}

theorem bytes_of_parseOid {b : Bytes} {oid : ObjectId} (h : parseOid b = .ok oid) :
    oid.bytes = b := by
  rw [parseOid] at h
  split at h
  · rename_i oid' hoid
    obtain rfl := Except.ok.inj h
    exact ObjectId.bytes_of_tryFrom hoid
  · cases h

theorem parentOids_perm (h : ∀ c, fetchParents db repo c = .ok (parents c)) (c : ObjectId) :
    (parentOids db repo c.bytes).Perm ((parents c).map ObjectId.bytes) := by
  rw [map_of_mapM_ok (fun _ _ => bytes_of_parseOid) (h c), parentOids]
  exact (List.mergeSort_perm _ _).symm.map _

theorem parentsAre_of_fetchParents (h : ∀ c, fetchParents db repo c = .ok (parents c)) :
    ParentsAre db repo parents := by
  intro c b
  rw [(parentOids_perm h c).mem_iff, List.mem_map]

theorem ParentsAre.exists_finite (h : ParentsAre db repo parents) :
    ∃ R : Finset ObjectId, ∀ c q, q ∈ parents c → c ∈ R ∧ q ∈ R := by
  refine ⟨(db.commitParents.rows.flatMap fun r => [r.commitOid, r.parentOid].filterMap ObjectId.tryFrom).toFinset,
    fun c q hq => ?_⟩
  obtain ⟨r, hr, -, hcommit, hparent⟩ := mem_parentOids.mp ((h c q.bytes).mpr ⟨q, hq, rfl⟩)
  simp only [List.mem_toFinset, List.mem_flatMap, List.mem_filterMap]
  exact ⟨⟨r, hr, r.commitOid, by simp, by rw [hcommit, ObjectId.tryFrom_bytes]⟩,
    r, hr, r.parentOid, by simp, by rw [hparent, ObjectId.tryFrom_bytes]⟩

/-- **The walk of the SQL backend**: the cap is on the length of the list. -/
theorem reachableExcluding_eq (h : ∀ c, fetchParents db repo c = .ok (parents c))
    (hacyclic : Acyclic parents) (hw : Walked parents tips excluding exclude listed enough) :
    ∃ enough', ∀ fuel, enough' ≤ fuel → ∀ cap,
      reachableExcluding fuel db repo tips excluding cap = some (withinCap cap listed.length listed) := by
  have hare := parentsAre_of_fetchParents h
  obtain ⟨R, hR⟩ := hare.exists_finite
  obtain ⟨enough', hcollect⟩ := hare.collectAll_ends hacyclic (fun c q hq => (hR c q hq).1) excluding
  refine ⟨enough' + enough, fun fuel hfuel cap => ?_⟩
  rw [reachableExcluding]
  by_cases hnil : tips = []
  · subst hnil
    rw [if_pos rfl, hw.listed_eq_nil]
    cases cap with
    | none => rfl
    | some limit => rfl
  · rw [if_neg hnil]
    obtain ⟨exclude', hexclude, hmem⟩ := hcollect fuel (by omega)
    obtain rfl : exclude' = exclude := Finset.ext fun x => (hmem x).trans (hw.mem_exclude x).symm
    rw [Outcome.bind_of_done hexclude, show fetchParents db repo = lookup parents from funext h]
    have hwalk := hw.walk fuel (by omega)
    cases cap with
    | none => exact hwalk
    | some limit => exact walkFrom_limited hwalk limit (.capExceeded limit)

end Sql

/-! ### The KV backend -/

namespace Kv

variable {s : Store} {repo : UInt64}

theorem exists_finite (h : ∀ c, fetchParents s repo c = .ok (parents c)) :
    ∃ R : Finset ObjectId, ∀ c q, q ∈ parents c → q ∈ R :=
  ⟨(s.toList.filterMap fun pair => ObjectId.tryFrom pair.2).toFinset, fun c _ hq =>
    List.mem_toFinset.mpr (mem_fetchParents (h c) hq)⟩

theorem parentsFor_eq (h : ∀ c, fetchParents s repo c = .ok (parents c)) (pass : String) :
    parentsFor pass s repo = lookup parents := by
  funext c
  rw [parentsFor, h]
  rfl

/-- **The walk of the KV backend**: the cap is on the length of the list and on the number of
excluded commits. -/
theorem reachableExcluding_eq (h : ∀ c, fetchParents s repo c = .ok (parents c))
    (hw : Walked parents tips excluding exclude listed enough) :
    ∀ fuel, enough ≤ fuel → ∀ cap, reachableExcluding fuel s repo tips excluding cap =
      some (if tips = [] then .ok [] else withinCap cap (max listed.length exclude.card) listed) := by
  intro fuel hfuel cap
  rw [reachableExcluding]
  by_cases hnil : tips = []
  · rw [if_pos hnil, if_pos hnil]
    rfl
  · rw [if_neg hnil, if_neg hnil, parentsFor_eq h]
    have hmark := hw.mark fuel hfuel
    have hwalk := hw.walk fuel hfuel
    have hcollect : ∀ cap, collectAncestors fuel s repo cap =
        markFrom (lookup parents) (fun set _ => cap.bind fun limit =>
          if limit < set.card then some (.capExceeded limit) else none)
          fuel := fun cap => by
      funext set oid
      rw [collectAncestors, parentsFor_eq h]
    rw [hcollect]
    cases cap with
    | none =>
      refine (Outcome.bind_of_done hmark _).trans ?_
      exact hwalk
    | some limit =>
      have hmark' := foldlM_markFrom_limited hmark limit (ReachableError.capExceeded limit) (Nat.zero_le _)
      have hwalk' := walkFrom_limited hwalk limit (ReachableError.capExceeded limit)
      by_cases hmany : exclude.card ≤ limit
      · rw [if_pos hmany] at hmark'
        refine (Outcome.bind_of_done hmark' _).trans (hwalk'.trans (congrArg some ?_))
        rw [withinCap]
        simp only [max_le_iff, hmany, and_true]
      · rw [if_neg hmany] at hmark'
        rw [withinCap, if_neg fun hle => hmany ((le_max_right _ _).trans hle)]
        exact congrArg (· >>= _) hmark'

end Kv

/-! ### Both backends -/

/-- What `reachable_excluding` promises of its outcome. -/
structure ExactWalk (parents : ObjectId → List ObjectId) (tips excluding : List ObjectId)
    (cap : Option Nat) (outcome : Except ReachableError (List ObjectId)) : Prop where
  /-- a list holds what it should, once each, and no more than the cap allows -/
  ok : ∀ l, outcome = .ok l → l.Nodup ∧ (∀ limit, cap = some limit → l.length ≤ limit) ∧
    ∀ x, x ∈ l ↔ Reach parents tips x ∧ ¬ Reach parents excluding x
  exceeded : ∀ limit, cap = some limit → limit < {x | Reach parents tips x ∧ ¬ Reach parents excluding x}.ncard →
    outcome = .error (.capExceeded limit)
  answers : (∀ limit, cap = some limit → {x | Reach parents tips x ∧ ¬ Reach parents excluding x}.ncard ≤ limit ∧
    {x | Reach parents excluding x}.ncard ≤ limit) → ∃ l, outcome = .ok l

theorem Walked.exactWalk (hw : Walked parents tips excluding exclude listed enough) {n : Nat}
    (hlow : listed.length ≤ n) (hhigh : n ≤ max listed.length exclude.card) (cap : Option Nat) :
    ExactWalk parents tips excluding cap (withinCap cap n listed) := by
  refine ⟨fun l hl => ?_, fun limit hcap hlt => ?_, fun hfits => ?_⟩
  · cases cap with
    | none =>
      obtain rfl := Except.ok.inj hl
      exact ⟨hw.nodup, by simp, hw.mem_listed⟩
    | some limit =>
      rw [withinCap] at hl
      split at hl
      · rename_i hle
        obtain rfl := Except.ok.inj hl
        refine ⟨hw.nodup, fun limit' hlimit => ?_, hw.mem_listed⟩
        obtain rfl := Option.some.inj hlimit
        exact hlow.trans hle
      · cases hl
  · rw [hw.ncard_listed] at hlt
    rw [hcap, withinCap, if_neg (by omega)]
  · cases cap with
    | none => exact ⟨listed, rfl⟩
    | some limit =>
      obtain ⟨hlist, hexclude⟩ := hfits limit rfl
      rw [hw.ncard_listed] at hlist
      rw [hw.ncard_exclude] at hexclude
      exact ⟨listed, if_pos (hhigh.trans (max_le hlist hexclude))⟩

theorem Walked.exactWalk_nil (hw : Walked parents [] excluding exclude listed enough)
    (cap : Option Nat) : ExactWalk parents [] excluding cap (.ok []) := by
  have hlist := hw.exactWalk le_rfl (le_max_left _ _) cap
  rw [hw.listed_eq_nil] at hlist
  cases cap with
  | none => exact hlist
  | some limit => exact hlist

/-- **The walks are exact**: of the SQL backend on a parent graph without cycles, of the KV backend
on any parent graph. -/
theorem walks_exact (parents : ObjectId → List ObjectId) (tips excluding : List ObjectId)
    (cap : Option Nat) :
    (∀ (db : Sql.Db) (repo : Int), (∀ c, Sql.fetchParents db repo c = .ok (parents c)) →
      Acyclic parents →
      ∃ outcome enough, ExactWalk parents tips excluding cap outcome ∧
        ∀ fuel, enough ≤ fuel → Sql.reachableExcluding fuel db repo tips excluding cap = some outcome) ∧
      ∀ (s : Kv.Store) (repo : UInt64), (∀ c, Kv.fetchParents s repo c = .ok (parents c)) →
        ∃ outcome enough, ExactWalk parents tips excluding cap outcome ∧
          ∀ fuel, enough ≤ fuel → Kv.reachableExcluding fuel s repo tips excluding cap = some outcome := by
  refine ⟨fun db repo h hacyclic => ?_, fun s repo h => ?_⟩
  · obtain ⟨R, hR⟩ := (Sql.parentsAre_of_fetchParents h).exists_finite
    obtain ⟨exclude, listed, enough, hw⟩ := exists_walked (fun c q hq => (hR c q hq).2) tips excluding
    obtain ⟨enough', hrun⟩ := Sql.reachableExcluding_eq h hacyclic hw
    exact ⟨_, enough', hw.exactWalk le_rfl (le_max_left _ _) cap, fun fuel hfuel => hrun fuel hfuel cap⟩
  · obtain ⟨R, hR⟩ := Kv.exists_finite h
    obtain ⟨exclude, listed, enough, hw⟩ := exists_walked hR tips excluding
    refine ⟨_, enough, ?_, fun fuel hfuel => Kv.reachableExcluding_eq h hw fuel hfuel cap⟩
    split
    · rename_i hnil
      subst hnil
      exact hw.exactWalk_nil cap
    · exact hw.exactWalk (le_max_left _ _) le_rfl cap

/-- Three commits in a row. -/
def rowContent (oid : ObjectId) : ObjectContent :=
  ⟨.commit, [], if oid = .fill 3 then [.fill 2] else if oid = .fill 2 then [.fill 1] else []⟩

def rowParents (oid : ObjectId) : List ObjectId := (rowContent oid).parents

def rowTables : Sql.Db :=
  Sql.ingestPack rowContent ⟨Lib.Table.empty, Lib.Table.empty, Lib.Table.empty⟩ 1 [.fill 1, .fill 2, .fill 3]

def rowKeys : Kv.Store := Kv.ingestPack rowContent ∅ 1 [.fill 1, .fill 2, .fill 3]

theorem fetchParents_rowTables (c : ObjectId) :
    Sql.fetchParents rowTables 1 c = .ok (rowParents c) := by
  have hrows : rowTables.commitParents.rows = [⟨1, (ObjectId.fill 2).bytes, (ObjectId.fill 1).bytes, 0⟩,
      ⟨1, (ObjectId.fill 3).bytes, (ObjectId.fill 2).bytes, 0⟩] := by decide +kernel
  by_cases h3 : c = .fill 3
  · subst h3
    decide +kernel
  · by_cases h2 : c = .fill 2
    · subst h2
      decide +kernel
    · have hbytes3 : (ObjectId.fill 3).bytes ≠ c.bytes := fun h => h3 (ObjectId.ext_bytes h.symm)
      have hbytes2 : (ObjectId.fill 2).bytes ≠ c.bytes := fun h => h2 (ObjectId.ext_bytes h.symm)
      rw [Sql.fetchParents, hrows]
      simp [hbytes2, hbytes3, rowParents, rowContent, h2, h3, pure, Except.pure]

theorem fetchParents_rowKeys (c : ObjectId) : Kv.fetchParents rowKeys 1 c = .ok (rowParents c) := by
  by_cases hc : c ∈ [ObjectId.fill 1, .fill 2, .fill 3]
  · refine Kv.fetchParents_ingestPack rowContent (Kv.stored_empty _) 1 hc ?_
    simp only [rowContent]
    split_ifs <;> decide
  · rw [rowKeys, Kv.fetchParents_ingestPack_of_notMem rowContent 1 hc]
    simp only [List.mem_cons, not_or] at hc
    simp [rowParents, rowContent, hc]

theorem acyclic_rowParents : Acyclic rowParents := by
  refine acyclic_of_rank (fun c => (c.bytes.headD 0).toNat) fun c p hp => ?_
  rw [rowParents, rowContent] at hp
  split_ifs at hp with h3 h2
  · rw [h3, List.mem_singleton.mp hp]
    decide
  · rw [h2, List.mem_singleton.mp hp]
    decide
  · exact absurd hp List.not_mem_nil

theorem walks_exact_row :
    (∃ outcome enough, ExactWalk rowParents [.fill 3] [.fill 1] (some 2) outcome ∧
      ∀ fuel, enough ≤ fuel → Sql.reachableExcluding fuel rowTables 1 [.fill 3] [.fill 1] (some 2) = some outcome) ∧
      ∃ outcome enough, ExactWalk rowParents [.fill 3] [.fill 1] (some 2) outcome ∧
        ∀ fuel, enough ≤ fuel → Kv.reachableExcluding fuel rowKeys 1 [.fill 3] [.fill 1] (some 2) = some outcome :=
  ⟨(walks_exact rowParents [.fill 3] [.fill 1] (some 2)).1 rowTables 1 fetchParents_rowTables acyclic_rowParents,
    (walks_exact rowParents [.fill 3] [.fill 1] (some 2)).2 rowKeys 1 fetchParents_rowKeys⟩

/-! ### Where the caps differ -/

/-- Two runs that are the same from some fuel on. -/
def Alike (run run' : Nat → Outcome ReachableError (List ObjectId)) : Prop :=
  ∃ enough, ∀ fuel, enough ≤ fuel → run fuel = run' fuel

theorem alike_iff {run run' : Nat → Outcome ReachableError (List ObjectId)}
    {r r' : Except ReachableError (List ObjectId)} {enough enough' : Nat}
    (h : ∀ fuel, enough ≤ fuel → run fuel = some r)
    (h' : ∀ fuel, enough' ≤ fuel → run' fuel = some r') : Alike run run' ↔ r = r' := by
  constructor
  · rintro ⟨n, hn⟩
    have hsame := hn (n + (enough + enough')) (by omega)
    rw [h _ (by omega), h' _ (by omega)] at hsame
    exact Option.some.inj hsame
  · rintro rfl
    exact ⟨enough + enough', fun fuel hfuel => by rw [h fuel (by omega), h' fuel (by omega)]⟩

theorem withinCap_eq_iff {cap : Option Nat} {n n' : Nat} {l : List ObjectId} (hle : n ≤ n') :
    withinCap cap n l = withinCap cap n' l ↔ ∀ limit, cap = some limit → n' ≤ limit ∨
      limit < n := by
  cases cap with
  | none => simp [withinCap]
  | some limit =>
    simp only [withinCap, Option.some.injEq, forall_eq']
    split_ifs with h h' h'
    · simp [h']
    · simp only [false_iff]
      omega
    · omega
    · simp only [true_iff]
      omega

/-- **The two backends answer alike** exactly if the walk is of nothing, the excluded commits are
within the cap, or the list is beyond it. Otherwise SQL lists what KV refuses to. -/
theorem caps_agree_iff {db : Sql.Db} {repoDbId : Int} {s : Kv.Store} {repoId : UInt64}
    (hsql : ∀ c, Sql.fetchParents db repoDbId c = .ok (parents c))
    (hkv : ∀ c, Kv.fetchParents s repoId c = .ok (parents c)) (hacyclic : Acyclic parents)
    (tips excluding : List ObjectId) (cap : Option Nat) :
    (Alike (fun fuel => Sql.reachableExcluding fuel db repoDbId tips excluding cap)
        (fun fuel => Kv.reachableExcluding fuel s repoId tips excluding cap) ↔
      tips = [] ∨ ∀ limit, cap = some limit → {x | Reach parents excluding x}.ncard ≤ limit ∨
        limit < {x | Reach parents tips x ∧ ¬ Reach parents excluding x}.ncard) ∧
      (¬ Alike (fun fuel => Sql.reachableExcluding fuel db repoDbId tips excluding cap)
          (fun fuel => Kv.reachableExcluding fuel s repoId tips excluding cap) →
        ∃ enough l limit, ∀ fuel, enough ≤ fuel →
          Sql.reachableExcluding fuel db repoDbId tips excluding cap = some (.ok l) ∧
          Kv.reachableExcluding fuel s repoId tips excluding cap = some (.error (.capExceeded limit))) := by
  obtain ⟨R, hR⟩ := Kv.exists_finite hkv
  obtain ⟨exclude, listed, enough, hw⟩ := exists_walked hR tips excluding
  obtain ⟨enough', hrunSql⟩ := Sql.reachableExcluding_eq hsql hacyclic hw
  have hrunKv := Kv.reachableExcluding_eq hkv hw
  have halike : Alike (fun fuel => Sql.reachableExcluding fuel db repoDbId tips excluding cap)
      (fun fuel => Kv.reachableExcluding fuel s repoId tips excluding cap) ↔
      tips = [] ∨ ∀ limit, cap = some limit → exclude.card ≤ limit ∨ limit < listed.length := by
    rw [alike_iff (fun fuel hfuel => hrunSql fuel hfuel cap) (fun fuel hfuel => hrunKv fuel hfuel cap)]
    by_cases hnil : tips = []
    · subst hnil
      rw [if_pos rfl, hw.listed_eq_nil, iff_true_right (Or.inl rfl)]
      cases cap <;> rfl
    · rw [if_neg hnil, withinCap_eq_iff (le_max_left _ _), or_iff_right hnil]
      refine forall₂_congr fun limit _ => ?_
      omega
  refine ⟨by rw [halike, hw.ncard_exclude, hw.ncard_listed], fun hdiffer => ?_⟩
  rw [halike] at hdiffer
  push Not at hdiffer
  obtain ⟨hnil, limit, rfl, hmany, hfew⟩ := hdiffer
  refine ⟨enough + enough', listed, limit, fun fuel hfuel => ⟨?_, ?_⟩⟩
  · rw [hrunSql fuel (by omega), withinCap, if_pos hfew]
  · rw [hrunKv fuel (by omega), if_neg hnil, withinCap, if_neg (by omega)]

theorem caps_agree_row :
    Alike (fun fuel => Sql.reachableExcluding fuel rowTables 1 [.fill 3] [.fill 1] none)
      (fun fuel => Kv.reachableExcluding fuel rowKeys 1 [.fill 3] [.fill 1] none) :=
  (caps_agree_iff fetchParents_rowTables fetchParents_rowKeys acyclic_rowParents [.fill 3] [.fill 1] none).1.mpr
    (Or.inr fun _ h => nomatch h)

/-- One new commit over two old ones, with a cap of one. -/
theorem caps_disagree :
    Sql.reachableExcluding 5 rowTables 1 [.fill 3] [.fill 2] (some 1) = some (.ok [.fill 3]) ∧
      Kv.reachableExcluding 5 rowKeys 1 [.fill 3] [.fill 2] (some 1) = some (.error (.capExceeded 1)) := by
  constructor
  · decide +kernel
  · decide +kernel

/-! ### The order of the list -/

/-- `l` is what the runs list, under every cap that lets them. -/
def ListedBy (run : Nat → Option Nat → Outcome ReachableError (List ObjectId)) (l : List ObjectId) :
    Prop :=
  ∃ enough, ∀ fuel, enough ≤ fuel → run fuel none = Outcome.done l ∧ ∀ cap l', run fuel cap = Outcome.done l' → l' = l

theorem eq_of_withinCap {cap : Option Nat} {n : Nat} {l l' : List ObjectId}
    (h : withinCap cap n l = .ok l') : l' = l := by
  cases cap with
  | none => exact (Except.ok.inj h).symm
  | some limit =>
    rw [withinCap] at h
    split at h
    · exact (Except.ok.inj h).symm
    · cases h

theorem Walked.lists (hw : Walked parents tips excluding exclude listed enough)
    {run : Nat → Option Nat → Outcome ReachableError (List ObjectId)} {n start : Nat}
    (hrun : ∀ fuel, start ≤ fuel → ∀ cap, run fuel cap =
      some (if tips = [] then .ok [] else withinCap cap n listed)) : ListedBy run listed := by
  by_cases hnil : tips = []
  · subst hnil
    refine ⟨start, fun fuel hfuel =>
      ⟨by rw [hrun fuel hfuel, if_pos rfl, hw.listed_eq_nil]; rfl, fun cap l' hl' => ?_⟩⟩
    rw [hrun fuel hfuel, if_pos rfl] at hl'
    rw [hw.listed_eq_nil]
    exact (Except.ok.inj (Option.some.inj hl')).symm
  · refine ⟨start, fun fuel hfuel => ⟨by rw [hrun fuel hfuel, if_neg hnil]; rfl, fun cap l' hl' => ?_⟩⟩
    rw [hrun fuel hfuel, if_neg hnil] at hl'
    exact eq_of_withinCap (Option.some.inj hl')

/-- The walk comes to nothing but its tips, and these are given parents first. -/
def TipsInOrder (parents : ObjectId → List ObjectId) (tips excluding : List ObjectId) : Prop :=
  (∀ x, Reach parents tips x → ¬ Reach parents excluding x → x ∈ tips) ∧
    ∀ pre c post, tips = pre ++ c :: post → ¬ Reach parents excluding c →
      ∀ p ∈ parents c, p ∈ tips → ¬ Reach parents excluding p → p ∈ pre

theorem Walked.parentFirst_iff (hw : Walked parents tips excluding exclude listed enough) :
    ParentFirst parents listed ↔ TipsInOrder parents tips excluding := by
  have hiff := Lib.parentFirst_iff (hw.walk enough le_rfl)
  simp only [okOrNil_lookup, hw.mem_exclude, hw.mem_listed] at hiff
  rw [hiff, TipsInOrder]
  simp only [and_imp]

/-- **When the list is parent-first**, for both backends. -/
theorem walks_parentFirst_iff {parents : ObjectId → List ObjectId} (hacyclic : Acyclic parents)
    (tips excluding : List ObjectId) :
    (∀ (db : Sql.Db) (repo : Int), (∀ c, Sql.fetchParents db repo c = .ok (parents c)) →
      ∃ l, ListedBy (fun fuel cap => Sql.reachableExcluding fuel db repo tips excluding cap) l ∧
        (ParentFirst parents l ↔ TipsInOrder parents tips excluding)) ∧
      ∀ (s : Kv.Store) (repo : UInt64), (∀ c, Kv.fetchParents s repo c = .ok (parents c)) →
        ∃ l, ListedBy (fun fuel cap => Kv.reachableExcluding fuel s repo tips excluding cap) l ∧
          (ParentFirst parents l ↔ TipsInOrder parents tips excluding) := by
  refine ⟨fun db repo h => ?_, fun s repo h => ?_⟩
  · obtain ⟨R, hR⟩ := (Sql.parentsAre_of_fetchParents h).exists_finite
    obtain ⟨exclude, listed, enough, hw⟩ := exists_walked (fun c q hq => (hR c q hq).2) tips excluding
    obtain ⟨enough', hrun⟩ := Sql.reachableExcluding_eq h hacyclic hw
    refine ⟨listed, ⟨enough', fun fuel hfuel => ⟨hrun fuel hfuel none, fun cap l' hl' => ?_⟩⟩, hw.parentFirst_iff⟩
    exact eq_of_withinCap (Option.some.inj ((hrun fuel hfuel cap).symm.trans hl'))
  · obtain ⟨R, hR⟩ := Kv.exists_finite h
    obtain ⟨exclude, listed, enough, hw⟩ := exists_walked hR tips excluding
    exact ⟨listed, hw.lists (Kv.reachableExcluding_eq h hw), hw.parentFirst_iff⟩

theorem walks_parentFirst_row :
    (∃ l, ListedBy (fun fuel cap =>
      Sql.reachableExcluding fuel rowTables 1 [.fill 3] [.fill 2] cap) l ∧
      (ParentFirst rowParents l ↔ TipsInOrder rowParents [.fill 3] [.fill 2])) ∧
      ∃ l, ListedBy (fun fuel cap => Kv.reachableExcluding fuel rowKeys 1 [.fill 3] [.fill 2] cap) l ∧
        (ParentFirst rowParents l ↔ TipsInOrder rowParents [.fill 3] [.fill 2]) :=
  ⟨(walks_parentFirst_iff acyclic_rowParents [.fill 3] [.fill 2]).1 rowTables 1 fetchParents_rowTables,
    (walks_parentFirst_iff acyclic_rowParents [.fill 3] [.fill 2]).2 rowKeys 1 fetchParents_rowKeys⟩

/-- A commit before its parent. -/
theorem walks_child_first :
    Sql.reachableExcluding 5 rowTables 1 [.fill 3] [.fill 1] none =
      Outcome.done [.fill 3, .fill 2] ∧
      Kv.reachableExcluding 5 rowKeys 1 [.fill 3] [.fill 1] none = Outcome.done [.fill 3, .fill 2] ∧
      ¬ ParentFirst rowParents [.fill 3, .fill 2] := by
  refine ⟨by decide +kernel, by decide +kernel, fun h => ?_⟩
  exact List.not_mem_nil (h [] (.fill 3) [.fill 2] rfl (.fill 2) (by decide) (by decide))

end Mizzle
