import Mizzle.Backend.Kv.Refs
import Mizzle.Lib.Traverse
import Mizzle.Lib.Walk

/-!
# The parent graph of the KV backend

`mizzle/src/backend/kv/graph.rs`, as far as pushes are classified with it: `fetch_parents` scans the
key range of a commit and decodes the values, `is_ancestor` is a breadth-first search over
`fetch_parents`, and `compute_push_kind` reads its answer. The stored parent graph is
`parents s repo`; a commit whose parents do not decode has none in it, and a search that meets such
a commit fails.
-/

namespace Mizzle.Kv

open Lib

/-- A range scan: the pairs with `lo ≤ key < hi` in key order, at most `limit` of them. -/
def scan (s : Store) (lo hi : Bytes) (limit : Nat) : List (Bytes × Bytes) :=
  (s.filter fun key _ => Between lo hi key).toList.take limit

def decodeParent (value : Bytes) : Except String ObjectId :=
  match ObjectId.tryFrom value with
  | some parent => .ok parent
  | none => .error "corrupt parent oid"

/-- `fetch_parents`; the limit of the scan is `u32::MAX`. -/
def fetchParents (s : Store) (repoId : UInt64) (commitOid : ObjectId) :
    Except String (List ObjectId) :=
  (scan s (parentsPrefixStart repoId commitOid) (parentsPrefixEnd repoId commitOid) (2 ^ 32 - 1)).mapM
    fun pair => decodeParent pair.2

/-- `is_ancestor`. Every commit the search can meet is the value of a key, so the fuel does not run
out (`isAncestor_answers`). -/
def isAncestor (s : Store) (repoId : UInt64) (ancestor descendant : ObjectId) :
    Except String Bool :=
  if ancestor = descendant then .ok true
  else (search (fetchParents s repoId) ancestor (s.size + 2) [descendant] [descendant]).getD (.ok false)

/-- `compute_push_kind`. -/
def computePushKind (s : Store) (repoId : UInt64) (oldOid newOid : ObjectId) : PushKind :=
  PushKind.classify oldOid newOid (isAncestor s repoId oldOid newOid matches .ok true)

def parents (s : Store) (repoId : UInt64) : ObjectId → List ObjectId :=
  okOrNil (fetchParents s repoId)

/-! ### Scans -/

theorem scan_congr {s t : Store} {lo hi : Bytes} (h : ∀ key, Between lo hi key → s[key]? = t[key]?)
    (limit : Nat) : scan s lo hi limit = scan t lo hi limit := by
  have hfilter : (s.filter fun key _ => Between lo hi key) = t.filter fun key _ => Between lo hi key := by
    refine Std.ExtTreeMap.ext_getElem? fun key => ?_
    rw [Std.ExtTreeMap.getElem?_filter', Std.ExtTreeMap.getElem?_filter']
    by_cases hkey : Between lo hi key
    · rw [h key hkey]
    · simp [hkey]
  rw [scan, hfilter, scan]

variable {repoId : UInt64} {s : Store} {c : ObjectId}

theorem mem_of_mem_scan {lo hi : Bytes} {limit : Nat} {pair : Bytes × Bytes}
    (h : pair ∈ scan s lo hi limit) : s[pair.1]? = some pair.2 ∧ Between lo hi pair.1 := by
  have hmem := List.mem_of_mem_take h
  rw [← Prod.mk.eta (p := pair), Std.ExtTreeMap.mem_toList_iff_getElem?_eq_some,
    Std.ExtTreeMap.getElem?_filter', Option.filter_eq_some_iff] at hmem
  simpa using hmem

theorem between_parents_iff {key : Bytes} :
    Between (parentsPrefixStart repoId c) (parentsPrefixEnd repoId c) key ↔
      parentsPrefixStart repoId c <+: key :=
  between_iff_prefix (b := prefixPar) (by decide) _ key

theorem fetchParents_congr {s t : Store}
    (h : ∀ key, parentsPrefixStart repoId c <+: key → s[key]? = t[key]?) :
    fetchParents s repoId c = fetchParents t repoId c := by
  rw [fetchParents, scan_congr fun key hkey => h key (between_parents_iff.mp hkey), fetchParents]

theorem fetchParents_of_absent (h : ∀ key, parentsPrefixStart repoId c <+: key → s[key]? = none) :
    fetchParents s repoId c = .ok [] := by
  have hempty : scan s (parentsPrefixStart repoId c) (parentsPrefixEnd repoId c) (2 ^ 32 - 1) = [] := by
    refine List.eq_nil_iff_forall_not_mem.mpr fun pair hpair => ?_
    obtain ⟨hget, hrange⟩ := mem_of_mem_scan hpair
    rw [h pair.1 (between_parents_iff.mp hrange)] at hget
    simp at hget
  rw [fetchParents, hempty]
  rfl

/-! ### The ancestor test -/

theorem decodeParent_ok {value : Bytes} {p : ObjectId} (h : decodeParent value = .ok p) :
    ObjectId.tryFrom value = some p := by
  rw [decodeParent] at h
  split at h
  · rename_i q hq
    rw [hq, Except.ok.inj h]
  · simp at h

theorem mem_fetchParents {c p : ObjectId} {ps : List ObjectId}
    (h : fetchParents s repoId c = .ok ps) (hp : p ∈ ps) :
    p ∈ s.toList.filterMap fun pair => ObjectId.tryFrom pair.2 := by
  obtain ⟨pair, hpair, hdecode⟩ := mem_of_mapM_ok h hp
  obtain ⟨hget, -⟩ := mem_of_mem_scan hpair
  refine List.mem_filterMap.mpr ⟨pair, ?_, decodeParent_ok hdecode⟩
  rw [← Prod.mk.eta (p := pair), Std.ExtTreeMap.mem_toList_iff_getElem?_eq_some]
  exact hget

theorem isAncestor_answers (s : Store) (repoId : UInt64) (ancestor descendant : ObjectId) :
    search (fetchParents s repoId) ancestor (s.size + 2) [descendant] [descendant] ≠ none := by
  refine search_ne_none (descendant :: s.toList.filterMap fun pair => ObjectId.tryFrom pair.2)
    (fun c ps hc p hp => List.mem_cons_of_mem _ (mem_fetchParents hc hp))
    (List.nodup_singleton _) (fun x hx => ?_) ?_
  · rw [List.mem_singleton] at hx
    exact hx ▸ List.mem_cons_self
  · have hlen : (s.toList.filterMap fun pair => ObjectId.tryFrom pair.2).length ≤ s.size :=
      (List.length_filterMap_le _ _).trans (by rw [Std.ExtTreeMap.length_toList])
    simp only [List.length_cons, List.length_nil]
    omega

theorem isAncestor_true {ancestor descendant : ObjectId}
    (h : isAncestor s repoId ancestor descendant = .ok true) :
    Reach (parents s repoId) [descendant] ancestor := by
  rw [reach_singleton]
  rw [isAncestor] at h
  split at h
  · rename_i heq
    exact heq ▸ .refl
  · obtain ⟨r, hr⟩ := Option.ne_none_iff_exists'.mp (isAncestor_answers s repoId ancestor descendant)
    rw [hr, Option.getD_some] at h
    obtain ⟨x, hx, hpath⟩ := search_true (hr.trans (congrArg some h))
    rw [List.mem_singleton] at hx
    exact hx ▸ hpath.to_reflTransGen

theorem isAncestor_false {ancestor descendant : ObjectId}
    (h : isAncestor s repoId ancestor descendant = .ok false) :
    ¬ Reach (parents s repoId) [descendant] ancestor := by
  rw [reach_singleton]
  rw [isAncestor] at h
  split at h
  · simp at h
  · rename_i hne
    obtain ⟨r, hr⟩ := Option.ne_none_iff_exists'.mp (isAncestor_answers s repoId ancestor descendant)
    rw [hr, Option.getD_some] at h
    refine search_false (fun x hx => Or.inl hx) ?_ (hr.trans (congrArg some h)) descendant
      (List.mem_singleton_self _)
    rw [List.mem_singleton]
    exact hne

end Mizzle.Kv
