import Mizzle.Backend.Kv.Graph
import Mizzle.Backend.Types

/-!
# Ingest of the KV backend

`ingest_pack` of `mizzle/src/backend/kv/objects.rs`: one transaction that puts the object key of
every object of the pack and, for a commit, one parent key for each parent. The position in a parent
key has sixteen bits.

What a pack holds is given by its oids: `content` says what the object with a given oid is. So every
ingest of a commit writes the same parent keys, and the parents of a commit do not change once it is
stored: `Stored` is the invariant, and `mem_parents_ingestPack` what follows for the parent
graph.
-/

namespace Mizzle.Kv

open Lib

def kindByte : ObjectType → UInt8
  | .blob => 0
  | .tree => 1
  | .commit => 2
  | .tag => 3

/-- `encode_object`. -/
def encodeObject (kind : ObjectType) (data : Bytes) : Bytes := kindByte kind :: data

variable (content : ObjectId → ObjectContent)

/-- The puts for the parents of a commit. -/
def parentWrites (repoId : UInt64) (oid : ObjectId) : List (Bytes × Option Bytes) :=
  (content oid).parents.zipIdx.map fun (parent, i) => (par repoId oid (UInt16.ofNat i), some parent.bytes)

def objectWrites (repoId : UInt64) (oid : ObjectId) : List (Bytes × Option Bytes) :=
  (obj repoId oid, some (encodeObject (content oid).kind (content oid).data)) :: parentWrites content repoId oid

variable {s : Store} {repo' : UInt64} {repo : UInt64} {c : ObjectId}

/-- `ingest_pack`, for the objects of the pack. -/
def ingestPack (s : Store) (repoId : UInt64) (oids : List ObjectId) : Store :=
  Lock.applyWrites s (oids.flatMap (objectWrites content repoId))

/-! ### Keys -/

theorem prefixPar_ne {b : UInt8} {rest : Bytes} (hb : b ≠ prefixPar) :
    ¬ parentsPrefixStart repo c <+: b :: rest := by
  rw [parentsPrefixStart, List.cons_append, List.cons_prefix_cons]
  exact fun h => hb h.1.symm

theorem key_of_mem_objectWrites {oid : ObjectId} {w : Bytes × Option Bytes}
    (h : w ∈ objectWrites content repo oid) :
    w.1 = obj repo oid ∨ w ∈ parentWrites content repo oid := by
  rcases List.mem_cons.mp h with rfl | h
  · exact Or.inl rfl
  · exact Or.inr h

theorem key_of_mem_parentWrites {oid : ObjectId} {w : Bytes × Option Bytes}
    (h : w ∈ parentWrites content repo oid) : ∃ pos, w.1 = par repo oid pos := by
  obtain ⟨⟨parent, i⟩, -, rfl⟩ := List.mem_map.mp h
  exact ⟨_, rfl⟩

theorem refs_ingestPack (s : Store) (repo : UInt64) (oids : List ObjectId) (r : UInt64)
    (n : String) : (ingestPack content s repo oids)[refkey r n]? = s[refkey r n]? := by
  refine Lock.get_applyWrites_of_notMem s _ _ fun w hw hkey => ?_
  obtain ⟨oid, -, hw⟩ := List.mem_flatMap.mp hw
  rcases key_of_mem_objectWrites content hw with hobj | hpar
  · exact refkey_ne_obj r repo n oid (hkey.symm.trans hobj)
  · obtain ⟨pos, hpar⟩ := key_of_mem_parentWrites content hpar
    exact refkey_ne_par r repo n oid pos (hkey.symm.trans hpar)

theorem refMap_ingestPack (s : Store) (repo : UInt64) (oids : List ObjectId) :
    refMap (ingestPack content s repo oids) = refMap s := by
  funext r n
  rw [refMap, refs_ingestPack, refMap]

theorem get_obj_objectWrites (s : Store) (repo : UInt64) (o oid : ObjectId) :
    (Lock.applyWrites s (objectWrites content repo o))[obj repo oid]? =
      if oid = o then some (encodeObject (content oid).kind (content oid).data) else s[obj repo oid]? := by
  have hparents := Lock.get_applyWrites_of_notMem
    (Lock.KeyStore.set s (obj repo o) (some (encodeObject (content o).kind (content o).data)))
    (parentWrites content repo o) (obj repo oid) fun w hw hkey => by
      obtain ⟨pos, hpar⟩ := key_of_mem_parentWrites content hw
      exact obj_ne_par repo repo oid o pos (hkey.symm.trans hpar)
  refine hparents.trans ?_
  split
  · rename_i heq
    subst heq
    exact Lock.KeyStore.get_set_self ..
  · rename_i hne
    exact Lock.KeyStore.get_set_ne _ _ _ _ fun hkey => hne (obj_inj.mp hkey).2

/-- **An ingest writes the objects of the pack** and no others. -/
theorem get_obj_ingestPack (s : Store) (repo : UInt64) (oids : List ObjectId) (oid : ObjectId) :
    (ingestPack content s repo oids)[obj repo oid]? =
      if oid ∈ oids then some (encodeObject (content oid).kind (content oid).data) else s[obj repo oid]? := by
  induction oids generalizing s with
  | nil => rfl
  | cons o oids ih =>
    have hsplit : ingestPack content s repo (o :: oids)
        = ingestPack content (Lock.applyWrites s (objectWrites content repo o)) repo oids := by
      rw [ingestPack, List.flatMap_cons, Lock.applyWrites, List.foldl_append]
      rfl
    rw [hsplit, ih, get_obj_objectWrites]
    by_cases hmem : oid ∈ oids
    · rw [if_pos hmem, if_pos (List.mem_cons_of_mem _ hmem)]
    · rw [if_neg hmem]
      simp [hmem]

/-- `has_object`. -/
def hasObject (s : Store) (repoId : UInt64) (oid : ObjectId) : Bool := s[obj repoId oid]?.isSome

theorem hasObject_ingestPack (s : Store) (repo : UInt64) (oids : List ObjectId) (oid : ObjectId) :
    hasObject (ingestPack content s repo oids) repo oid = true ↔ hasObject s repo oid = true ∨
      oid ∈ oids := by
  rw [hasObject, get_obj_ingestPack, hasObject]
  split <;> simp_all

/-! ### Parents do not change -/

/-- The parent keys of every commit are all absent, or as an ingest of the commit writes them. -/
def Stored (s : Store) : Prop :=
  ∀ repo c, (∀ key, parentsPrefixStart repo c <+: key → s[key]? = none) ∨
    ∀ key, parentsPrefixStart repo c <+: key →
      s[key]? = (Lock.applyWrites (∅ : Store) (parentWrites content repo c))[key]?

theorem parents_objectWrites (h : Stored content s) (repo : UInt64) (oid : ObjectId) {key : Bytes}
    (hkey : parentsPrefixStart repo' c <+: key) :
    (Lock.applyWrites s (objectWrites content repo oid))[key]?
      = if repo' = repo ∧ c = oid then (Lock.applyWrites (∅ : Store) (parentWrites content repo oid))[key]?
        else s[key]? := by
  have hobj : key ≠ obj repo oid := by
    rintro rfl
    exact prefixPar_ne (by decide) hkey
  have hset : (Lock.KeyStore.set s (obj repo oid) (some (encodeObject (content oid).kind (content oid).data)))[key]?
      = s[key]? := by rw [← get_eq, Lock.KeyStore.get_set_ne _ _ _ _ hobj, get_eq]
  have hcons : Lock.applyWrites s (objectWrites content repo oid) = Lock.applyWrites
      (Lock.KeyStore.set s (obj repo oid) (some (encodeObject (content oid).kind (content oid).data)))
      (parentWrites content repo oid) := rfl
  rw [hcons]
  split
  · rename_i hsame
    obtain ⟨rfl, rfl⟩ := hsame
    by_cases hmem : ∃ w ∈ parentWrites content repo' c, w.1 = key
    · rw [← get_eq, ← get_eq]
      exact Lock.get_applyWrites_of_mem _ _ hmem
    · -- a key that the ingest does not write is absent in either case of the invariant
      push Not at hmem
      have hfresh : (Lock.applyWrites (∅ : Store) (parentWrites content repo' c))[key]? = none :=
        (Lock.get_applyWrites_of_notMem (∅ : Store) _ key hmem).trans (by simp)
      rw [hfresh, ← get_eq, Lock.get_applyWrites_of_notMem _ _ key hmem, get_eq, hset]
      rcases h repo' c with habsent | hstored
      · exact habsent key hkey
      · rw [hstored key hkey, hfresh]
  · rename_i hother
    rw [← get_eq, Lock.get_applyWrites_of_notMem _ _ key, get_eq, hset]
    rintro w hw rfl
    obtain ⟨pos, hpos⟩ := key_of_mem_parentWrites content hw
    rw [hpos, parentsPrefixStart_prefix_par] at hkey
    exact hother hkey

theorem stored_objectWrites (h : Stored content s) (repo : UInt64) (oid : ObjectId) :
    Stored content (Lock.applyWrites s (objectWrites content repo oid)) := by
  intro repo' c
  by_cases hsame : repo' = repo ∧ c = oid
  · refine Or.inr fun key hkey => ?_
    rw [parents_objectWrites content h repo oid hkey, if_pos hsame, hsame.1, hsame.2]
  · refine (h repo' c).imp (fun habsent key hkey => ?_) (fun hstored key hkey => ?_)
    · rw [parents_objectWrites content h repo oid hkey, if_neg hsame, habsent key hkey]
    · rw [parents_objectWrites content h repo oid hkey, if_neg hsame, hstored key hkey]

theorem mem_parents_objectWrites (h : Stored content s) (repo : UInt64) (oid : ObjectId)
    {c p : ObjectId} (hp : p ∈ parents s repo' c) :
    p ∈ parents (Lock.applyWrites s (objectWrites content repo oid)) repo' c := by
  have hsame : ∀ key, parentsPrefixStart repo' c <+: key →
      (Lock.applyWrites s (objectWrites content repo oid))[key]? = s[key]? := by
    intro key hkey
    rw [parents_objectWrites content h repo oid hkey]
    split
    · rename_i hown
      rcases h repo' c with habsent | hstored
      · rw [parents, okOrNil_ok (fetchParents_of_absent habsent)] at hp
        exact absurd hp List.not_mem_nil
      · rw [hstored key hkey, hown.1, hown.2]
    · rfl
  rw [parents, okOrNil, fetchParents_congr hsame]
  exact hp

theorem ingestPack_cons (s : Store) (repo : UInt64) (oid : ObjectId) (oids : List ObjectId) :
    ingestPack content s repo (oid :: oids)
      = ingestPack content (Lock.applyWrites s (objectWrites content repo oid)) repo oids := by
  rw [ingestPack, List.flatMap_cons, Lock.applyWrites, List.foldl_append]
  rfl

theorem stored_ingestPack (h : Stored content s) (repo : UInt64) (oids : List ObjectId) :
    Stored content (ingestPack content s repo oids) := by
  induction oids generalizing s with
  | nil => exact h
  | cons oid oids ih =>
    rw [ingestPack_cons]
    exact ih (stored_objectWrites content h repo oid)

/-- **An ingest only adds edges** to the parent graph of any repository. -/
theorem mem_parents_ingestPack (h : Stored content s) (repo : UInt64) (oids : List ObjectId)
    {c p : ObjectId} (hp : p ∈ parents s repo' c) :
    p ∈ parents (ingestPack content s repo oids) repo' c := by
  induction oids generalizing s with
  | nil => exact hp
  | cons oid oids ih =>
    rw [ingestPack_cons]
    exact ih (stored_objectWrites content h repo oid) (mem_parents_objectWrites content h repo oid hp)

/-! ### Ref transactions and the parent graph -/

theorem parentKeys_batchWrites (s : Store) (repo : UInt64) (us : List RefUpdate) {key : Bytes}
    (hkey : parentsPrefixStart repo' c <+: key) :
    (Lock.applyWrites s (batchWrites repo us))[key]? = s[key]? := by
  refine Lock.get_applyWrites_of_notMem s _ key fun w hw hwkey => ?_
  obtain ⟨u, -, rfl⟩ := List.mem_map.mp hw
  rw [← hwkey] at hkey
  exact prefixPar_ne (by decide) hkey

theorem stored_batchWrites (h : Stored content s) (repo : UInt64) (us : List RefUpdate) :
    Stored content (Lock.applyWrites s (batchWrites repo us)) := by
  refine fun repo' c => (h repo' c).imp (fun habsent key hkey => ?_) (fun hstored key hkey => ?_)
  · rw [parentKeys_batchWrites s repo us hkey, habsent key hkey]
  · rw [parentKeys_batchWrites s repo us hkey, hstored key hkey]

theorem parents_batchWrites (s : Store) (repo : UInt64) (us : List RefUpdate) (repo' : UInt64)
    (c : ObjectId) :
    parents (Lock.applyWrites s (batchWrites repo us)) repo' c = parents s repo' c := by
  rw [parents, okOrNil, fetchParents_congr fun key hkey => parentKeys_batchWrites s repo us hkey, parents, okOrNil]

end Mizzle.Kv
