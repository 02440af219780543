import Mizzle.Backend.Kv.Holds
import Mizzle.Backend.Kv.Layout
import Mizzle.Backend.Sql.Holds
import Mizzle.Pack.Builders

/-!
# The pack cache

`mizzle/src/backend/pack_cache.rs` under `build_pack` of the SQL and KV backends: a pack that has
been built is written to a file named by a hash of the request, and a later request with that name
is answered with the file. Nothing is ever invalidated. A pack is given here by the set of its
objects, and a file is there complete or not at all.

A run is a sequence of ingests and builds. The cache is right as long as every request that it is
asked for was complete when it was first built: the objects it leads to were all stored
(`Complete`). Then later ingests do not change what is selected, so that every answer is the
selection from the store of the moment (`run_uncached`). A request for objects that are still
missing is answered with what there was at its first time, for ever (`stale_hit`).
-/

namespace Mizzle.Pack

open Lib

/-! ### Runs -/

/-- A repository with a cache: ingest, the selection on a miss, and the name of a request. -/
structure CachedRepo (σ : Type) where
  ingest : σ → List ObjectId → σ
  select : Nat → σ → List ObjectId → List ObjectId → Outcome String (Finset ObjectId)
  key : Request → Bytes

structure CacheState (σ : Type) where
  store : σ
  cache : Bytes → Option (Finset ObjectId)

inductive CacheEvent where
  | ingest (oids : List ObjectId)
  | build (r : Request) (answer : Except String (Finset ObjectId))

namespace CachedRepo

variable {σ : Type} (b : CachedRepo σ) {r : Request} {es : List CacheEvent} {pack : Finset ObjectId}
  {s s' : CacheState σ}

/-- What the call selects with the cache disabled. -/
def Selects (store : σ) (r : Request) (answer : Except String (Finset ObjectId)) : Prop :=
  ∃ enough, ∀ fuel, enough ≤ fuel → b.select fuel store r.wants r.haves = some answer

/-- A step. A miss writes the file, unless the selection fails or the file cannot be written. -/
inductive Step : CacheState σ → CacheEvent → CacheState σ → Prop
  | ingest (s : CacheState σ) (oids : List ObjectId) : Step s (.ingest oids) { s with store := b.ingest s.store oids }
  | hit {s : CacheState σ} {r : Request} {pack : Finset ObjectId} (h : s.cache (b.key r) = some pack) :
    Step s (.build r (.ok pack)) s
  | miss {s : CacheState σ} {r : Request} {answer : Except String (Finset ObjectId)} (h : s.cache (b.key r) = none)
    (hselect : b.Selects s.store r answer) : Step s (.build r answer) s
  | write {s : CacheState σ} {r : Request} {pack : Finset ObjectId} (h : s.cache (b.key r) = none)
    (hselect : b.Selects s.store r (.ok pack)) :
    Step s (.build r (.ok pack)) { s with cache := Function.update s.cache (b.key r) (some pack) }

/-- The runs from an empty cache whose steps meet a condition on the events so far and the state. -/
inductive Run (ok : List CacheEvent → CacheState σ → CacheEvent → Prop) :
    List CacheEvent → CacheState σ → Prop
  | start (store : σ) : Run ok [] ⟨store, fun _ => none⟩
  | step {es : List CacheEvent} {s s' : CacheState σ} {e : CacheEvent} (h : Run ok es s) (hok : ok es s e)
    (hstep : b.Step s e s') : Run ok (es ++ [e]) s'

/-- The answer is what the call selects from the store of the moment. -/
def Uncached (s : CacheState σ) : CacheEvent → Prop
  | .ingest _ => True
  | .build r answer => b.Selects s.store r answer

variable (holds : Objects → σ → Prop) (p : Parser)

/-- The objects that the request leads to are there. -/
def Complete (store : σ) (r : Request) : Prop :=
  ∃ o : Objects, holds o store ∧ o.Sealed p ∧ (∀ w ∈ r.wants, o.find w ≠ none) ∧ ∀ c ∈ r.haves, o.IsCommit c

/-- A build of a complete request, whose name no other request has had before, up to the order of
its oids. -/
def Sound (es : List CacheEvent) (s : CacheState σ) : CacheEvent → Prop
  | .ingest _ => True
  | .build r _ => Complete holds p s.store r ∧
    ∀ r' answer, .build r' answer ∈ es → b.key r' = b.key r → r'.wants.Perm r.wants ∧ r'.haves.Perm r.haves

variable {b holds p}

theorem selects_iff_of_ends {store : σ} {selected : ObjectId → Prop}
    (h : Outcome.Ends (fun fuel => b.select fuel store r.wants r.haves) fun set =>
      ∀ x, x ∈ set ↔ selected x) : b.Selects store r (.ok pack) ↔ ∀ x, x ∈ pack ↔ selected x := by
  obtain ⟨enough, hends⟩ := h
  constructor
  · rintro ⟨enough', hpack⟩
    obtain ⟨set, hdone, hmem⟩ := hends (max enough enough') (le_max_left _ _)
    obtain rfl : set = pack :=
      Except.ok.inj (Option.some.inj (hdone.symm.trans (hpack (max enough enough') (le_max_right _ _))))
    exact hmem
  · intro hpack
    refine ⟨enough, fun fuel hfuel => ?_⟩
    obtain ⟨set, hdone, hmem⟩ := hends fuel hfuel
    obtain rfl : set = pack := Finset.ext fun x => (hmem x).trans (hpack x).symm
    exact hdone

/-- A file of the cache is the pack of an earlier request that was complete and still is. -/
def CacheInv (b : CachedRepo σ) (holds : Objects → σ → Prop) (p : Parser) (es : List CacheEvent)
    (s : CacheState σ) : Prop :=
  ∀ k pack, s.cache k = some pack → ∃ r answer, CacheEvent.build r answer ∈ es ∧ b.key r = k ∧
    ∃ o : Objects, holds o s.store ∧ o.Sealed p ∧ (∀ w ∈ r.wants, o.find w ≠ none) ∧ (∀ c ∈ r.haves, o.IsCommit c) ∧
      ∀ x, x ∈ pack ↔ o.SelectedDb p r.wants r.haves x

/-- An ingestion keeps the stores that are held, and each of them determines the selections inside
it. -/
structure Keeps (b : CachedRepo σ) (holds : Objects → σ → Prop) (p : Parser) : Prop where
  ingest : ∀ {o store}, holds o store → ∀ oids, holds o (b.ingest store oids)
  select : ∀ {o store}, holds o store → o.Sealed p → ∀ {wants haves},
    (∀ w ∈ wants, o.find w ≠ none) → (∀ c ∈ haves, o.IsCommit c) →
      Outcome.Ends (fun fuel => b.select fuel store wants haves)
        fun selected => ∀ x, x ∈ selected ↔ o.SelectedDb p wants haves x

section Invariant

variable (hkeeps : b.Keeps holds p)

include hkeeps in
theorem selects_iff {o : Objects} {store : σ} (ho : holds o store) (hsealed : o.Sealed p)
    (hwants : ∀ w ∈ r.wants, o.find w ≠ none) (hhaves : ∀ c ∈ r.haves, o.IsCommit c) :
    b.Selects store r (.ok pack) ↔ ∀ x, x ∈ pack ↔ o.SelectedDb p r.wants r.haves x :=
  selects_iff_of_ends (hkeeps.select ho hsealed hwants hhaves)

include hkeeps in
theorem selects_of_inv {answer : Except String (Finset ObjectId)} (hinv : CacheInv b holds p es s)
    (hnamed : ∀ r' answer, .build r' answer ∈ es → b.key r' = b.key r → r'.wants.Perm r.wants ∧
      r'.haves.Perm r.haves) (hstep : b.Step s (.build r answer) s') :
    b.Selects s.store r answer := by
  cases hstep with
  | miss _ hsel => exact hsel
  | write _ hsel => exact hsel
  | @hit r pack hcache =>
    obtain ⟨r', answer, hmem, hkey, o, ho, hsealed, hwants, hhaves, hpack⟩ := hinv _ _ hcache
    obtain ⟨hpermWants, hpermHaves⟩ := hnamed r' answer hmem hkey
    refine (selects_iff hkeeps ho hsealed (fun w hw => hwants w (hpermWants.mem_iff.mpr hw))
      fun c hc => hhaves c (hpermHaves.mem_iff.mpr hc)).mpr fun x => ?_
    rw [hpack, Objects.selectedDb_perm hpermWants hpermHaves]

include hkeeps in
theorem inv_step {e : CacheEvent} (hinv : CacheInv b holds p es s) (hok : b.Sound holds p es s e)
    (hstep : b.Step s e s') : CacheInv b holds p (es ++ [e]) s' := by
  have hold : CacheInv b holds p (es ++ [e]) s := by
    intro k pack hcache
    obtain ⟨r, answer, hmem, hrest⟩ := hinv k pack hcache
    exact ⟨r, answer, List.mem_append_left _ hmem, hrest⟩
  cases hstep with
  | ingest oids =>
    intro k pack hcache
    obtain ⟨r, answer, hmem, hkey, o, ho, hrest⟩ := hold k pack hcache
    exact ⟨r, answer, hmem, hkey, o, hkeeps.ingest ho oids, hrest⟩
  | hit _ => exact hold
  | miss _ _ => exact hold
  | @write r pack' hnone hsel =>
    intro k pack hcache
    by_cases hk : k = b.key r
    · subst hk
      obtain rfl : pack' = pack := by simpa using hcache
      obtain ⟨o, ho, hsealed, hwants, hhaves⟩ := hok.1
      exact ⟨r, _, List.mem_append_right _ (List.mem_singleton_self _), rfl, o, ho, hsealed, hwants, hhaves,
        (selects_iff hkeeps ho hsealed hwants hhaves).mp hsel⟩
    · refine hold k pack ?_
      simpa [Function.update_of_ne hk] using hcache

include hkeeps in
theorem inv_of_run {s : CacheState σ} (hrun : b.Run (b.Sound holds p) es s) :
    CacheInv b holds p es s := by
  induction hrun with
  | start store => exact fun k pack hcache => nomatch hcache
  | step _ hok hstep ih => exact inv_step hkeeps ih hok hstep

include hkeeps in
/-- **Every answer of a run of complete requests is the selection of the moment.** -/
theorem run_uncached {e : CacheEvent} (hrun : b.Run (b.Sound holds p) es s)
    (hok : b.Sound holds p es s e) (hstep : b.Step s e s') : b.Uncached s e := by
  cases e with
  | ingest oids => trivial
  | build r answer => exact selects_of_inv hkeeps (inv_of_run hkeeps hrun) hok.2 hstep

theorem step_of_selects {s : CacheState σ} (h : b.Selects s.store r (.ok pack)) :
    ∃ pack' s', b.Step s (.build r (.ok pack')) s' := by
  cases hcache : s.cache (b.key r) with
  | some pack' => exact ⟨pack', s, .hit hcache⟩
  | none => exact ⟨pack, s, .miss hcache h⟩

include hkeeps in
theorem exists_hit {store : σ} {r : Request} (hcomplete : Complete holds p store r) :
    ∃ pack s, s.store = store ∧ b.Run (b.Sound holds p) [.build r (.ok pack)] s ∧
      s.cache (b.key r) = some pack ∧
      b.Sound holds p [.build r (.ok pack)] s (.build r (.ok pack)) ∧ b.Step s (.build r (.ok pack)) s := by
  obtain ⟨o, ho, hsealed, hwants, hhaves⟩ := id hcomplete
  obtain ⟨enough, hends⟩ := hkeeps.select ho hsealed hwants hhaves
  obtain ⟨pack, -, hpack⟩ := hends enough le_rfl
  have hselects : b.Selects store r (.ok pack) := (selects_iff hkeeps ho hsealed hwants hhaves).mpr hpack
  have hcache := Function.update_self (b.key r) (some pack) fun _ => none
  refine ⟨pack, ⟨store, Function.update (fun _ => none) (b.key r) (some pack)⟩, rfl, ?_, hcache, ⟨hcomplete, ?_⟩,
    .hit hcache⟩
  · exact .step (.start store) ⟨hcomplete, fun _ _ hmem => absurd hmem List.not_mem_nil⟩ (.write rfl hselects)
  · intro r' answer hmem _
    obtain ⟨rfl, -⟩ := CacheEvent.build.inj (List.mem_singleton.mp hmem)
    exact ⟨.refl _, .refl _⟩

end Invariant

theorem stale_of_ingest {store : σ} {r : Request} {oids : List ObjectId}
    (hbefore : b.Selects store r (.ok ∅)) (hafter : ¬ b.Selects (b.ingest store oids) r (.ok ∅)) :
    ∃ s, b.Run (fun _ _ _ => True) [.build r (.ok ∅), .ingest oids] s ∧
      b.Step s (.build r (.ok ∅)) s ∧
      ¬ b.Uncached s (.build r (.ok ∅)) := by
  refine ⟨⟨b.ingest store oids, Function.update (fun _ => none) (b.key r) (some ∅)⟩, ?_, ?_, hafter⟩
  · exact .step (.step (.start store) trivial (.write rfl hbefore)) trivial (.ingest _ oids)
  · exact .hit (Function.update_self (b.key r) (some ∅) fun _ => none)

end CachedRepo

end Mizzle.Pack

/-! ### The two backends -/

namespace Mizzle.Sql

open Lib Pack

theorem holds_ingestPack {o : Objects} {oids : List ObjectId}
    (hoids : ∀ x, x ∈ oids ↔ o.find x ≠ none) (hfew : ∀ c, (o.parents c).length ≤ 2 ^ 32)
    (repo : Int) :
    Holds o.content o.parser o (ingestPack o.content emptyTables repo oids) repo := by
  have hstores := stores_ingestPack hoids hfew repo
  refine ⟨hstores.found, fun c _ => hstores.parents c, fun c hc row hrow hnone => ?_⟩
  have hempty : RowsIngested o.content emptyTables.commitParents := fun row hrow => absurd hrow List.not_mem_nil
  have hmem := ((mem_commitParents_ingestPack_iff (fun c => (Objects.parents_content c).symm ▸ hfew c)
    hempty repo oids).2 row).mpr (Or.inr ⟨c, (hoids c).mpr hc, hrow⟩)
  exact Table.lookup_eq_none.mp hnone row hmem rfl

end Mizzle.Sql

namespace Mizzle.Kv

open Lib Pack

theorem holds_ingestPack {o : Objects} {oids : List ObjectId}
    (hoids : ∀ x, x ∈ oids ↔ o.find x ≠ none) (hfew : ∀ c, (o.parents c).length ≤ 65536)
    (repo : UInt64) : Holds o.content o.parser o (ingestPack o.content ∅ repo oids) repo := by
  have hstores := stores_ingestPack hoids hfew repo
  have hstored := stored_ingestPack o.content (stored_empty _) repo oids
  refine ⟨hstores.found, fun c _ => hstores.parents c, fun c hc key => ?_⟩
  have hmem := (hoids c).mpr hc
  by_cases hobj : key = obj repo c
  · rw [hobj, get_obj_objectWrites, if_pos rfl, get_obj_ingestPack, if_pos hmem]
  · by_cases hpar : parentsPrefixStart repo c <+: key
    · rw [parents_objectWrites _ hstored repo c hpar, if_pos ⟨rfl, rfl⟩,
        parents_ingestPack_of_mem o.content (stored_empty _) repo hmem hpar]
    · have hother := Lock.get_applyWrites_of_notMem (ingestPack o.content ∅ repo oids)
        (objectWrites o.content repo c) key
      rw [get_eq, get_eq] at hother
      refine hother fun w hw hkey => ?_
      rcases List.mem_cons.mp hw with rfl | hw
      · exact hobj hkey.symm
      · obtain ⟨pos, hpos⟩ := key_of_mem_parentWrites _ hw
        exact hpar (hkey ▸ hpos ▸ parentsPrefixStart_prefix_par.mpr ⟨rfl, rfl⟩)

end Mizzle.Kv

namespace Mizzle.Pack

open Lib

variable (content : ObjectId → ObjectContent) (p : Parser) (sha256 : Bytes → Bytes)

/-- A repository of the SQL backend; its id is cast to `u64` for the cache. -/
def sqlCached (repoDbId : Int64) : CachedRepo Sql.Db where
  ingest db oids := Sql.ingestPack content db repoDbId.toInt oids
  select fuel db wants haves := (Sql.database p fuel db repoDbId.toInt).selectObjects wants haves
  key := cacheKey sha256 repoDbId.toUInt64

def kvCached (repoId : UInt64) : CachedRepo Kv.Store where
  ingest s oids := Kv.ingestPack content s repoId oids
  select fuel s wants haves := (Kv.database p fuel s repoId).selectObjects wants haves
  key := cacheKey sha256 repoId

variable {content p sha256}

theorem keeps_sqlCached (repoDbId : Int64) :
    (sqlCached content p sha256 repoDbId).Keeps
      (fun o db => Sql.Holds content p o db repoDbId.toInt) p where
  ingest ho oids := ho.ingestPack oids
  select ho hsealed _ _ hwants hhaves := ho.selectObjects_ends hsealed hwants hhaves

theorem keeps_kvCached (repoId : UInt64) :
    (kvCached content p sha256 repoId).Keeps (fun o s => Kv.Holds content p o s repoId) p where
  ingest ho oids := ho.ingestPack oids
  select ho hsealed _ _ hwants hhaves := ho.selectObjects_ends hsealed hwants hhaves

/-- **When the pack cache is never stale**: in every run of the SQL or KV backend in which every
build is of a complete request, whose name no other request has had. -/
theorem cache_never_stale :
    (∀ (repoDbId : Int64) es s s' e, (sqlCached content p sha256 repoDbId).Run
        ((sqlCached content p sha256 repoDbId).Sound (fun o db => Sql.Holds content p o db repoDbId.toInt) p) es s →
      (sqlCached content p sha256 repoDbId).Sound (fun o db => Sql.Holds content p o db repoDbId.toInt) p es s e →
      (sqlCached content p sha256 repoDbId).Step s e s' → (sqlCached content p sha256 repoDbId).Uncached s e) ∧
    ∀ (repoId : UInt64) es s s' e, (kvCached content p sha256 repoId).Run
        ((kvCached content p sha256 repoId).Sound (fun o store => Kv.Holds content p o store repoId) p) es s →
      (kvCached content p sha256 repoId).Sound (fun o store => Kv.Holds content p o store repoId) p es s e →
      (kvCached content p sha256 repoId).Step s e s' → (kvCached content p sha256 repoId).Uncached s e := by
  constructor
  · intro repoDbId es s s' e hrun hok hstep
    exact CachedRepo.run_uncached (keeps_sqlCached repoDbId) hrun hok hstep
  · intro repoId es s s' e hrun hok hstep
    exact CachedRepo.run_uncached (keeps_kvCached repoId) hrun hok hstep

theorem sealed_linearStore : linearStore.Sealed linearStore.parser where
  closed := closed_linearStore
  acyclic := acyclic_linearStore
  gitlink {t x} h := by
    obtain ⟨es, hes, he⟩ := h
    exact absurd rfl (noGitlinks_linearStore t es hes _ he)
  root {c t} h := by
    have hroots : ∀ c ∈ linearStore.oids, ∀ t ∈ linearStore.rootOf linearStore.parser c,
        linearStore.find t ≠ none := by
      decide +kernel
    cases hfind : linearStore.find c with
    | none => simp [Objects.rootOf, hfind] at h
    | some obj => exact hroots c (linearStore.mem_oids c _ hfind) t h

section

variable {r : Request} (hwants : ∀ w ∈ r.wants, linearStore.find w ≠ none)
  (hhaves : ∀ c ∈ r.haves, linearStore.IsCommit c)

include hwants hhaves

theorem complete_linearTables :
    CachedRepo.Complete (fun o db => Sql.Holds linearStore.content linearStore.parser o db 1)
      linearStore.parser linearTables r :=
  ⟨linearStore, Sql.holds_ingestPack (fun _ => Objects.mem_keys_ofList)
    (fun c => (length_parents_linearStore c).trans (by decide)) 1, sealed_linearStore, hwants, hhaves⟩

theorem complete_linearKeys :
    CachedRepo.Complete (fun o s => Kv.Holds linearStore.content linearStore.parser o s 1)
      linearStore.parser linearKeys r :=
  ⟨linearStore, Kv.holds_ingestPack (fun _ => Objects.mem_keys_ofList)
    (fun c => (length_parents_linearStore c).trans (by decide)) 1, sealed_linearStore, hwants, hhaves⟩

end

/-- The request for the second commit of the linear history by a client that has the first. -/
def wantsSecond : Request := ⟨[.fill 2], [.fill 1], {}⟩

theorem cache_never_stale_linearStore :
    (∃ pack s, (sqlCached linearStore.content linearStore.parser id 1).Step s
      (.build wantsSecond (.ok pack)) s ∧
      s.cache (cacheKey id 1 wantsSecond) = some pack ∧
      (sqlCached linearStore.content linearStore.parser id 1).Uncached s (.build wantsSecond (.ok pack))) ∧
    ∃ pack s, (kvCached linearStore.content linearStore.parser id 1).Step s (.build wantsSecond (.ok pack)) s ∧
      s.cache (cacheKey id 1 wantsSecond) = some pack ∧
      (kvCached linearStore.content linearStore.parser id 1).Uncached s (.build wantsSecond (.ok pack)) := by
  have hwants : ∀ w ∈ wantsSecond.wants, linearStore.find w ≠ none := by decide +kernel
  have hhaves : ∀ c ∈ wantsSecond.haves, linearStore.IsCommit c := by decide +kernel
  obtain ⟨hsql, hkv⟩ := @cache_never_stale linearStore.content linearStore.parser id
  constructor
  · obtain ⟨pack, s, -, hrun, hcache, hok, hstep⟩ :=
      CachedRepo.exists_hit (keeps_sqlCached 1) (complete_linearTables hwants hhaves)
    exact ⟨pack, s, hstep, hcache, hsql 1 _ s s _ hrun hok hstep⟩
  · obtain ⟨pack, s, -, hrun, hcache, hok, hstep⟩ :=
      CachedRepo.exists_hit (keeps_kvCached 1) (complete_linearKeys hwants hhaves)
    exact ⟨pack, s, hstep, hcache, hkv 1 _ s s _ hrun hok hstep⟩

/-! ### A stale pack -/

def blobStore : Objects := .ofList [(.fill 5, .blob [])]

def wantsBlob : Request := ⟨[.fill 5], [], {}⟩

theorem closed_nil : (Objects.ofList []).Closed := Objects.closed_of_closedAt (by decide +kernel)

theorem stores_emptyTables (p : Parser) (repo : Int) :
    Sql.Stores p (.ofList []) Sql.emptyTables repo where
  found hfind := nomatch hfind
  absent _ := rfl
  parents c b := by simp [Sql.parentOids, Sql.emptyTables, Table.empty, Objects.parents, Objects.ofList]

theorem stores_empty (p : Parser) (repo : UInt64) : Kv.Stores p (.ofList []) ∅ repo where
  found hfind := nomatch hfind
  absent _ := by simp
  parents c := ⟨[], Kv.fetchParents_of_absent fun key hkey => by simp, fun q => by
    simp [Objects.parents, Objects.ofList]⟩

theorem closed_blobStore : blobStore.Closed := Objects.closed_of_closedAt (by decide +kernel)

theorem selectedDb_blobStore :
    blobStore.SelectedDb blobStore.parser wantsBlob.wants wantsBlob.haves (.fill 5) := by
  refine ⟨by decide +kernel, ?_, Or.inl List.mem_cons_self⟩
  simp [Objects.Had, Reach, wantsBlob]

/-- **A stale pack.** The blob is asked for before it is there, which caches an empty pack; once it
has been ingested, the same request is still answered with the empty pack. -/
theorem stale_hit :
    (∃ s, (sqlCached blobStore.content blobStore.parser id 1).Run (fun _ _ _ => True)
        [.build wantsBlob (.ok ∅), .ingest [.fill 5]] s ∧
      (sqlCached blobStore.content blobStore.parser id 1).Step s (.build wantsBlob (.ok ∅)) s ∧
      ¬ (sqlCached blobStore.content blobStore.parser id 1).Uncached s (.build wantsBlob (.ok ∅))) ∧
    ∃ s, (kvCached blobStore.content blobStore.parser id 1).Run (fun _ _ _ => True)
        [.build wantsBlob (.ok ∅), .ingest [.fill 5]] s ∧
      (kvCached blobStore.content blobStore.parser id 1).Step s (.build wantsBlob (.ok ∅)) s ∧
      ¬ (kvCached blobStore.content blobStore.parser id 1).Uncached s (.build wantsBlob (.ok ∅)) := by
  have hnothing : ∀ x, x ∈ (∅ : Finset ObjectId) ↔
      (Objects.ofList []).SelectedDb blobStore.parser wantsBlob.wants wantsBlob.haves x :=
    fun x => iff_of_false (Finset.notMem_empty x) fun hx => hx.1 rfl
  have hblob : ¬ ∀ x, x ∈ (∅ : Finset ObjectId) ↔
      blobStore.SelectedDb blobStore.parser wantsBlob.wants wantsBlob.haves x :=
    fun hall => Finset.notMem_empty _ ((hall (.fill 5)).mpr selectedDb_blobStore)
  have hacyclic : ∀ o : Objects, (∀ c ∈ o.oids, ∀ q ∈ o.parents c, 0 < 0) → Acyclic o.parents :=
    fun o => Objects.acyclic_of_rank fun _ => 0
  have hfew : ∀ c, (blobStore.parents c).length ≤ 0 := Objects.length_parents_le (by decide +kernel)
  have hhaves : ∀ (o : Objects), ∀ c ∈ wantsBlob.haves, o.IsCommit c := fun o c hc => absurd hc List.not_mem_nil
  constructor
  · refine @CachedRepo.stale_of_ingest _ _ Sql.emptyTables _ _ ?_ ?_
    · exact (CachedRepo.selects_iff_of_ends (sql_ends closed_nil (hacyclic _ (by decide +kernel)) (hhaves _)
        (stores_emptyTables _ _))).mpr hnothing
    · rwa [CachedRepo.selects_iff_of_ends (sql_ends closed_blobStore (hacyclic _ (by decide +kernel)) (hhaves _)
        (Sql.stores_ingestPack (fun x => Objects.mem_keys_ofList) (fun c => (hfew c).trans (by decide)) _))]
  · refine @CachedRepo.stale_of_ingest _ _ (∅ : Kv.Store) _ _ ?_ ?_
    · exact (CachedRepo.selects_iff_of_ends (kv_ends closed_nil (hhaves _) (stores_empty _ _))).mpr hnothing
    · rwa [CachedRepo.selects_iff_of_ends (kv_ends closed_blobStore (hhaves _)
        (Kv.stores_ingestPack (fun x => Objects.mem_keys_ofList) (fun c => (hfew c).trans (by decide)) _))]

end Mizzle.Pack
