import Mizzle.Backend.Kv.Layout

/-!
# The parents of an ingested commit

`ingest_pack` writes one key for each parent, with the position in the key, and `fetch_parents`
reads them back with a range scan. A position has sixteen bits: up to 65536 parents have different
keys, in the order of the parents, and are all read back (`fetchParents_ingestPack`).
-/

namespace Mizzle.Kv

open Lib

/-! ### Scans -/

theorem scan_eq {s : Store} {lo hi : Bytes} {pairs : List (Bytes × Bytes)}
    (hsorted : pairs.Pairwise fun a b => compare a.1 b.1 = .lt)
    (hmem : ∀ key value, (key, value) ∈ pairs ↔ s[key]? = some value ∧ Between lo hi key)
    (limit : Nat) : scan s lo hi limit = pairs.take limit := by
  have hirrefl : ∀ {l : List (Bytes × Bytes)}, (l.Pairwise fun a b => compare a.1 b.1 = .lt) → l.Nodup := by
    refine fun hl => hl.imp fun {a b} hlt heq => ?_
    rw [heq, Std.compare_self] at hlt
    simp at hlt
  have hscan : ∀ pair, pair ∈ (s.filter fun key _ => Between lo hi key).toList ↔ pair ∈ pairs := by
    rintro ⟨key, value⟩
    rw [Std.ExtTreeMap.mem_toList_iff_getElem?_eq_some, Std.ExtTreeMap.getElem?_filter',
      Option.filter_eq_some_iff, hmem]
    simp
  have hperm := (List.perm_ext_iff_of_nodup (hirrefl Std.ExtTreeMap.ordered_keys_toList) (hirrefl hsorted)).mpr hscan
  rw [scan, hperm.eq_of_pairwise (fun a b _ _ hab hba => ?_) Std.ExtTreeMap.ordered_keys_toList hsorted]
  exact absurd hba (Std.OrientedCmp.not_lt_of_lt hab)

theorem get_applyWrites_of_nodup {writes : List (Bytes × Option Bytes)}
    (hkeys : (writes.map Prod.fst).Nodup) {w : Bytes × Option Bytes} (hw : w ∈ writes) (s : Store) :
    (Lock.applyWrites s writes)[w.1]? = w.2 := by
  obtain ⟨before, after, rfl⟩ := List.append_of_mem hw
  have hafter : ∀ w' ∈ after, w'.1 ≠ w.1 := by
    intro w' hw' heq
    rw [List.map_append, List.map_cons, List.nodup_append] at hkeys
    exact (List.nodup_cons.mp hkeys.2.1).1 (heq ▸ List.mem_map_of_mem hw')
  have hset := Lock.get_applyWrites_of_notMem (Lock.KeyStore.set (Lock.applyWrites s before) w.1 w.2) after w.1 hafter
  rw [Lock.KeyStore.get_set_self] at hset
  rw [Lock.applyWrites, List.foldl_append, List.foldl_cons]
  exact hset

/-! ### Parent keys -/

/-- The keys and values for the parents of a commit. -/
def parentPairs (repoId : UInt64) (c : ObjectId) (ps : List ObjectId) : List (Bytes × Bytes) :=
  ps.zipIdx.map fun (parent, i) => (par repoId c (UInt16.ofNat i), parent.bytes)

theorem parentPairs_sorted (repoId : UInt64) (c : ObjectId) {ps : List ObjectId}
    (hfew : ps.length ≤ 65536) :
    (parentPairs repoId c ps).Pairwise fun a b => compare a.1 b.1 = .lt := by
  rw [parentPairs, List.pairwise_map, List.pairwise_iff_getElem]
  intro i j hi hj hij
  simp only [List.length_zipIdx] at hi hj
  simp only [List.getElem_zipIdx, Nat.zero_add]
  rw [compare_par, Nat.compare_eq_lt, UInt16.toNat_ofNat_of_lt' (by simp [UInt16.size]; omega),
    UInt16.toNat_ofNat_of_lt' (by simp [UInt16.size]; omega)]
  exact hij

theorem keys_nodup {pairs : List (Bytes × Bytes)}
    (h : pairs.Pairwise fun a b => compare a.1 b.1 = .lt) : (pairs.map Prod.fst).Nodup := by
  rw [List.Nodup, List.pairwise_map]
  refine h.imp fun {a b} hlt heq => ?_
  rw [heq, Std.compare_self] at hlt
  simp at hlt

theorem decodeParent_bytes (parent : ObjectId) : decodeParent parent.bytes = .ok parent := by
  rw [decodeParent, ObjectId.tryFrom_bytes]

theorem mapM_decodeParent (repoId : UInt64) (c : ObjectId) (ps : List ObjectId) :
    ((parentPairs repoId c ps).mapM fun pair => decodeParent pair.2) = .ok ps := by
  have hall : ∀ pairs : List (ObjectId × Nat),
    (pairs.map fun (parent, i) => (par repoId c (UInt16.ofNat i), parent.bytes)).mapM
      (fun pair => decodeParent pair.2) = .ok (pairs.map Prod.fst) := by
    intro pairs
    induction pairs with
    | nil => rfl
    | cons pair pairs ih =>
      rw [List.map_cons, List.mapM_cons, ih, decodeParent_bytes]
      rfl
  rw [parentPairs, hall, List.zipIdx_map_fst]

variable (content : ObjectId → ObjectContent)

theorem parentWrites_eq (repoId : UInt64) (c : ObjectId) :
    parentWrites content repoId c = (parentPairs repoId c (content c).parents).map fun pair =>
      (pair.1, some pair.2) := by
  rw [parentWrites, parentPairs, List.map_map]
  rfl

/-- **The parents that were written are read back**, in order. -/
theorem fetchParents_parentWrites (repoId : UInt64) {c : ObjectId}
    (hfew : (content c).parents.length ≤ 65536) :
    fetchParents (Lock.applyWrites (∅ : Store) (parentWrites content repoId c)) repoId c =
      .ok (content c).parents := by
  have hsorted := parentPairs_sorted repoId c hfew
  have hkeys : ((parentWrites content repoId c).map Prod.fst).Nodup := by
    rw [parentWrites_eq, List.map_map]
    exact keys_nodup hsorted
  have hmem : ∀ key value, (key, value) ∈ parentPairs repoId c (content c).parents ↔
      (Lock.applyWrites (∅ : Store) (parentWrites content repoId c))[key]? = some value ∧
        Between (parentsPrefixStart repoId c) (parentsPrefixEnd repoId c) key := by
    intro key value
    constructor
    · intro hpair
      have hw : (key, some value) ∈ parentWrites content repoId c := by
        rw [parentWrites_eq]
        exact List.mem_map.mpr ⟨_, hpair, rfl⟩
      refine ⟨get_applyWrites_of_nodup hkeys hw ∅, between_parents_iff.mpr ?_⟩
      obtain ⟨pos, hpos⟩ := key_of_mem_parentWrites content hw
      obtain rfl : key = par repoId c pos := hpos
      exact parentsPrefixStart_prefix_par.mpr ⟨rfl, rfl⟩
    · rintro ⟨hget, -⟩
      by_cases hw : ∃ w ∈ parentWrites content repoId c, w.1 = key
      · obtain ⟨w, hw, rfl⟩ := hw
        rw [get_applyWrites_of_nodup hkeys hw] at hget
        rw [parentWrites_eq] at hw
        obtain ⟨pair, hpair, rfl⟩ := List.mem_map.mp hw
        obtain rfl := Option.some.inj hget
        exact hpair
      · push Not at hw
        have hnone := Lock.get_applyWrites_of_notMem (∅ : Store) _ key hw
        rw [get_eq, hget, get_eq] at hnone
        simp at hnone
  rw [fetchParents, scan_eq hsorted hmem, List.take_of_length_le, mapM_decodeParent]
  rw [parentPairs, List.length_map, List.length_zipIdx]
  omega

theorem parents_ingestPack_of_notMem {s : Store} (h : Stored content s) (repoId : UInt64)
    {oids : List ObjectId} {c : ObjectId} (hc : c ∉ oids) {key : Bytes}
    (hkey : parentsPrefixStart repoId c <+: key) :
    (ingestPack content s repoId oids)[key]? = s[key]? := by
  induction oids generalizing s with
  | nil => rfl
  | cons oid oids ih =>
    have hne : ¬ (repoId = repoId ∧ c = oid) := fun heq => hc (heq.2 ▸ List.mem_cons_self)
    rw [ingestPack_cons, ih (stored_objectWrites content h repoId oid) fun hmem => hc (List.mem_cons_of_mem _ hmem),
      parents_objectWrites content h repoId oid hkey, if_neg hne]

theorem stored_empty : Stored content (∅ : Store) := fun _ _ => Or.inl fun _ _ => by simp

theorem fetchParents_ingestPack_of_notMem (repoId : UInt64) {oids : List ObjectId} {c : ObjectId}
    (hc : c ∉ oids) : fetchParents (ingestPack content ∅ repoId oids) repoId c = .ok [] :=
  fetchParents_of_absent fun key hkey => by
    rw [parents_ingestPack_of_notMem content (stored_empty content) repoId hc hkey]
    simp

theorem parents_ingestPack_of_mem {s : Store} (h : Stored content s) (repoId : UInt64)
    {oids : List ObjectId} {c : ObjectId} (hc : c ∈ oids) {key : Bytes}
    (hkey : parentsPrefixStart repoId c <+: key) :
    (ingestPack content s repoId oids)[key]? =
      (Lock.applyWrites (∅ : Store) (parentWrites content repoId c))[key]? := by
  induction oids generalizing s with
  | nil => exact absurd hc List.not_mem_nil
  | cons oid oids ih =>
    have hnext := stored_objectWrites content h repoId oid
    rw [ingestPack_cons]
    by_cases hrest : c ∈ oids
    · exact ih hnext hrest
    · obtain rfl : c = oid := (List.mem_cons.mp hc).resolve_right hrest
      rw [parents_ingestPack_of_notMem content hnext repoId hrest hkey, parents_objectWrites content h repoId c hkey,
        if_pos ⟨rfl, rfl⟩]

/-- **An ingested commit has its parents**, however often it has been ingested. -/
theorem fetchParents_ingestPack {s : Store} (h : Stored content s) (repoId : UInt64)
    {oids : List ObjectId} {c : ObjectId} (hc : c ∈ oids)
    (hfew : (content c).parents.length ≤ 65536) :
    fetchParents (ingestPack content s repoId oids) repoId c = .ok (content c).parents := by
  rw [fetchParents_congr fun key hkey => parents_ingestPack_of_mem content h repoId hc hkey]
  exact fetchParents_parentWrites content repoId hfew

/-! ### Too many parents -/

theorem last_write_of_mem_scan {repoId : UInt64} {c : ObjectId} {lo hi : Bytes} {limit : Nat}
    {pair : Bytes × Bytes}
    (h : pair ∈ scan (Lock.applyWrites (∅ : Store) (parentWrites content repoId c)) lo hi limit) :
    ∃ before after, parentWrites content repoId c = before ++ (pair.1, some pair.2) :: after ∧
      ∀ w ∈ after, w.1 ≠ pair.1 := by
  obtain ⟨hget, -⟩ := mem_of_mem_scan h
  by_cases hw : ∃ w ∈ parentWrites content repoId c, w.1 = pair.1
  · obtain ⟨before, v, after, hwrites, hafter, hv⟩ := Lock.exists_last_write (∅ : Store) hw
    obtain rfl : v = some pair.2 := by rw [← hv, get_eq, hget]
    exact ⟨before, after, hwrites, hafter⟩
  · push Not at hw
    have hnone := Lock.get_applyWrites_of_notMem (∅ : Store) _ pair.1 hw
    rw [get_eq, hget, get_eq] at hnone
    simp at hnone

theorem value_of_mem_parentWrites {repoId : UInt64} {c : ObjectId} {w : Bytes × Option Bytes}
    (h : w ∈ parentWrites content repoId c) : ∃ parent : ObjectId, w.2 = some parent.bytes := by
  obtain ⟨⟨parent, i⟩, -, rfl⟩ := List.mem_map.mp h
  exact ⟨parent, rfl⟩

theorem length_scan_le (repoId : UInt64) (c : ObjectId) (lo hi : Bytes) (limit : Nat) :
    (scan (Lock.applyWrites (∅ : Store) (parentWrites content repoId c)) lo hi limit).length ≤
      65536 := by
  have hsorted : (scan (Lock.applyWrites (∅ : Store) (parentWrites content repoId c)) lo hi limit).Pairwise
      fun a b => compare a.1 b.1 = .lt := Std.ExtTreeMap.ordered_keys_toList.sublist (List.take_sublist _ _)
  have hsub : (scan (Lock.applyWrites (∅ : Store) (parentWrites content repoId c)) lo hi limit).map Prod.fst ⊆
      (List.range 65536).map fun n => par repoId c (UInt16.ofNat n) := by
    intro key hkey
    obtain ⟨pair, hpair, rfl⟩ := List.mem_map.mp hkey
    obtain ⟨before, after, hwrites, -⟩ := last_write_of_mem_scan content hpair
    obtain ⟨pos, hpos⟩ := key_of_mem_parentWrites content (hwrites ▸ List.mem_append_right before List.mem_cons_self)
    exact List.mem_map.mpr ⟨pos.toNat, List.mem_range.mpr pos.toNat_lt, by rw [UInt16.ofNat_toNat]; exact hpos.symm⟩
  have hlength := (List.subperm_of_subset (keys_nodup hsorted) hsub).length_le
  simpa only [List.length_map, List.length_range] using hlength

/-- **A commit has its parents** exactly if there are no more than 65536 of them, whatever was
ingested before. -/
theorem parents_recorded_iff (packs : List (UInt64 × List ObjectId)) (repoId : UInt64)
    {oids : List ObjectId} {c : ObjectId} (hc : c ∈ oids) :
    fetchParents (ingestPack content (packs.foldl (fun s pack =>
      ingestPack content s pack.1 pack.2) ∅) repoId oids) repoId c =
      .ok (content c).parents ↔ (content c).parents.length ≤ 65536 := by
  have hstored : Stored content (packs.foldl (fun s pack => ingestPack content s pack.1 pack.2) ∅) :=
    List.foldlRecOn packs _ (stored_empty content) fun s hs pack _ => stored_ingestPack content hs pack.1 pack.2
  constructor
  · intro hok
    rw [fetchParents_congr fun key hkey => parents_ingestPack_of_mem content hstored repoId hc hkey,
      fetchParents] at hok
    rw [length_of_mapM_ok hok]
    exact length_scan_le content repoId c _ _ _
  · exact fetchParents_ingestPack content hstored repoId hc

/-- A merge, whose parents are not in the order of their oids. -/
def mergeContent (oid : ObjectId) : ObjectContent :=
  ⟨.commit, [], if oid = .fill 4 then [.fill 3, .fill 1, .fill 2] else []⟩

theorem parents_recorded_merge :
    fetchParents (ingestPack mergeContent (ingestPack mergeContent ∅ 1 [.fill 1, .fill 2, .fill 3])
      1 [.fill 4]) 1 (.fill 4) =
      .ok [.fill 3, .fill 1, .fill 2] :=
  (parents_recorded_iff mergeContent [(1, [.fill 1, .fill 2, .fill 3])] 1
    (List.mem_singleton_self (ObjectId.fill 4))).mpr
    (by decide)

/-- A merge of 65537 commits: one, then another one 65536 times. -/
def wideContent (_ : ObjectId) : ObjectContent :=
  ⟨.commit, [], .fill 1 :: List.replicate 65536 (.fill 2)⟩

/-- The writes for the parents after the first. -/
def laterWrites (repoId : UInt64) (c : ObjectId) : List (Bytes × Option Bytes) :=
  ((List.replicate 65536 (ObjectId.fill 2)).zipIdx 1).map fun (parent, i) =>
    (par repoId c (UInt16.ofNat i), some parent.bytes)

theorem parentWrites_wideContent (repoId : UInt64) (c : ObjectId) :
    parentWrites wideContent repoId c =
      (par repoId c 0, some (ObjectId.fill 1).bytes) :: laterWrites repoId c := by
  rw [parentWrites, wideContent, List.zipIdx_cons, List.map_cons]
  rfl

/-- The first parent is written over by the last one. -/
theorem first_parent_lost :
    ∃ ps, fetchParents (ingestPack wideContent ∅ 1 [.fill 3]) 1 (.fill 3) = .ok ps ∧
      .fill 1 ∉ ps := by
  rw [fetchParents_congr fun key hkey =>
    parents_ingestPack_of_mem wideContent (stored_empty _) 1 (List.mem_singleton_self _) hkey, fetchParents]
  have hok : ∀ pair ∈ scan (Lock.applyWrites (∅ : Store) (parentWrites wideContent 1 (.fill 3)))
      (parentsPrefixStart 1 (.fill 3)) (parentsPrefixEnd 1 (.fill 3)) (2 ^ 32 - 1), ∃ p,
        decodeParent pair.2 = .ok p := by
    intro pair hpair
    obtain ⟨before, after, hwrites, -⟩ := last_write_of_mem_scan wideContent hpair
    obtain ⟨parent, hparent⟩ := value_of_mem_parentWrites wideContent
      (hwrites ▸ List.mem_append_right before List.mem_cons_self)
    exact ⟨parent, by rw [Option.some.inj hparent, decodeParent_bytes]⟩
  obtain ⟨ps, hps⟩ := exists_mapM_ok hok
  refine ⟨ps, hps, fun hmem => ?_⟩
  obtain ⟨⟨key, value⟩, hpair, hdecode⟩ := mem_of_mapM_ok hps hmem
  obtain rfl : value = (ObjectId.fill 1).bytes := (ObjectId.bytes_of_tryFrom (decodeParent_ok hdecode)).symm
  obtain ⟨before, after, hwrites, hafter⟩ := last_write_of_mem_scan wideContent hpair
  rw [parentWrites_wideContent] at hwrites
  cases before with
  | nil =>
    -- the write of the last parent comes after that of the first, with the same key
    obtain ⟨hfirst, hrest⟩ := List.cons.inj hwrites
    have hlast : (par 1 (.fill 3) (UInt16.ofNat 65536), some (ObjectId.fill 2).bytes) ∈ laterWrites 1 (.fill 3) := by
      refine List.mem_map.mpr ⟨(.fill 2, 65536), List.mk_mem_zipIdx_iff_le_and_getElem?_sub.mpr ⟨by omega, ?_⟩, rfl⟩
      rw [List.getElem?_replicate, if_pos (by omega)]
    exact hafter _ (hrest ▸ hlast) (Prod.mk.inj hfirst).1
  | cons w before =>
    -- the others have the other value
    have hlater : (key, some (ObjectId.fill 1).bytes) ∈ laterWrites 1 (.fill 3) := by
      rw [(List.cons.inj hwrites).2]
      exact List.mem_append_right before List.mem_cons_self
    obtain ⟨⟨parent, i⟩, hparent, heq⟩ := List.mem_map.mp hlater
    obtain ⟨-, hget⟩ := List.mk_mem_zipIdx_iff_le_and_getElem?_sub.mp hparent
    have htwo := List.eq_of_mem_replicate (List.mem_of_getElem? hget)
    have hbytes := Option.some.inj (Prod.mk.inj heq).2
    rw [htwo] at hbytes
    exact absurd (ObjectId.ext_bytes hbytes) (by decide)

end Mizzle.Kv
