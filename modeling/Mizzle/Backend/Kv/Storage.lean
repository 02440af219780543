import Mizzle.Backend.Kv.Holds
import Mizzle.Backend.Kv.Repos
import Mizzle.Backend.Repository

/-!
# The KV backend as a service

`mizzle/src/backend/kv/mod.rs`: every request looks its path up in the index, which gives the id in
the keys of its repository, and runs one operation on these keys. A request here runs alone;
`initRepo` is what a call of `Mizzle.Backend.Kv.Repos` does that is not interrupted
(`initRepo_alone`).

The keys stand for the repositories that `Storage.spec` speaks of (`Stands`). An operation writes
keys of its own repository only (`KeyOf`), so the backend does what is specified for any requests to
any repositories (`implements_spec`).
-/

namespace Mizzle.Kv

open Lib Pack Storage Repos

/-! ### Repositories -/

/-- `init_repo_inner`. -/
def initRepo (s : Store) (path : String) : Store × Except String UInt64 :=
  match s[repoIndex path]? with
  | some bytes => (s, (decodeU64 bytes).mapError fun _ => "decoding repo_id")
  | none =>
    match nextId s with
    | .ok next => (Lock.applyWrites s (allocWrites path next), .ok next)
    | .error e => (s, .error e)

/-- `open_inner`. -/
def openRepo (s : Store) (path : String) : Except String UInt64 :=
  match s[repoIndex path]? with
  | some bytes => (decodeU64 bytes).mapError fun _ => "decoding repo_id"
  | none => .error (path.quote ++ " does not appear to be a git repository")

variable (content : ObjectId → ObjectContent) (codec : Codec) (mode : Lock.LockRead)

def serve : Service (Backend Store) Storage.Request Reply :=
  serveWith (fun s path => ((initRepo s path).1, .ofResult (fun _ => .done) (initRepo s path).2)) openRepo
    (runOperation content codec mode)

/-- The steps of a call of `init_repo` that is not interrupted. -/
def initSteps (s : Store) (path : String) : List Action :=
  match s[repoIndex path]? with
  | some _ => [.initRepo path, .get]
  | none =>
    match nextId s with
    | .ok _ => [.initRepo path, .get, .beginAlloc, .get, .lockCounter, .put, .put, .put, .commit]
    | .error _ => [.initRepo path, .get, .beginAlloc, .get, .lockCounter]

/-- **A call that is not interrupted** ends with the store and the id of `initRepo`. -/
theorem initRepo_alone {ι : Type} [DecidableEq ι] (i : ι) (s : Store) (path : String) :
    (((initSteps s path).map fun action => (i, action)).foldlM step (State.init s)).map
      (fun t => (t.store, t.calls i)) =
      some ((initRepo s path).1, .returned path (initRepo s path).2) := by
  have hindex := repoIndex_ne_nextRepoId path
  have hcounter := fun next => repoMeta_ne_nextRepoId next repoMetaExists
  have hmeta := fun next => repoMeta_ne_repoIndex next repoMetaExists path
  unfold initSteps initRepo
  split
  · rename_i bytes hread
    simp [step, callStep, State.init, State.setCall, readIndex, hread]
  · rename_i hread
    split
    · rename_i next hnext
      simp [step, callStep, State.init, State.setCall, State.lock, State.release, readIndex, hread,
        hnext, hindex, hcounter, hmeta]
    · rename_i e hnext
      simp [step, callStep, State.init, State.setCall, readIndex, hread, hnext]

/-! ### The keys of one repository -/

/-- A key of a table that is divided by repositories. -/
def KeyOf (repoId : UInt64) (key : Bytes) : Prop :=
  ∃ table rest, 3 ≤ table ∧ key = table :: be64 repoId ++ rest

/-- The keys that the operations on a repository read. -/
inductive ReadKey (repoId : UInt64) : Bytes → Prop
  | object (oid : ObjectId) : ReadKey repoId (obj repoId oid)
  | head : ReadKey repoId (repoMeta repoId repoMetaHead)
  | ref {key : Bytes} (h : refsPrefixStart repoId <+: key) : ReadKey repoId key
  | parent {c : ObjectId} {key : Bytes} (h : parentsPrefixStart repoId c <+: key) : ReadKey repoId key

/-- What no operation breaks, whatever the repository. -/
structure Intact (s : Store) : Prop where
  stored : Stored content s
  refs : WellFormed s

/-- The keys with the id are those of the repository. -/
structure HoldsRepo (s : Store) (repoId : UInt64) (r : Repository) : Prop where
  object : ∀ oid : ObjectId, s[obj repoId oid]? =
    if oid ∈ r.objects then some (encodeObject (content oid).kind (content oid).data) else none
  parentKey : ∀ (c : ObjectId) (key : Bytes), parentsPrefixStart repoId c <+: key →
    s[key]? = if c ∈ r.objects then (Lock.applyWrites (∅ : Store) (parentWrites content repoId c))[key]? else none
  refs : refMap s repoId = r.refs
  refKey : ∀ key value, s[key]? = some value → refsPrefixStart repoId <+: key → ∃ name, key = refkey repoId name
  head : s[repoMeta repoId repoMetaHead]? = none

/-- The keys with the id become those of `r'`, and the other repositories are left alone. -/
structure Moves (s s' : Store) (repoId : UInt64) (r' : Repository) : Prop where
  intact : Intact content s'
  holds : HoldsRepo content s' repoId r'
  frame : ∀ {key}, ¬ KeyOf repoId key → s'[key]? = s[key]?

variable {content codec mode} {p : Parser} {s t : Store} {repo : UInt64} {r : Repository}

variable {key : Bytes} {path : String}

theorem KeyOf.eq {repo' : UInt64} (h : KeyOf repo key) (h' : KeyOf repo' key) : repo = repo' := by
  obtain ⟨table, rest, -, rfl⟩ := h
  obtain ⟨table', rest', -, hkey⟩ := h'
  exact (be64_append_inj (List.cons.inj hkey).2).1

theorem keyOf_refkey (repo : UInt64) (name : String) : KeyOf repo (refkey repo name) :=
  ⟨prefixRef, utf8 name, by decide, rfl⟩

theorem keyOf_obj (repo : UInt64) (oid : ObjectId) : KeyOf repo (obj repo oid) :=
  ⟨prefixObj, oid.bytes, by decide, rfl⟩

theorem keyOf_par (repo : UInt64) (c : ObjectId) (pos : UInt16) : KeyOf repo (par repo c pos) :=
  ⟨prefixPar, c.bytes ++ be16 pos, by decide, by simp [par]⟩

theorem not_keyOf_of_lt (repo : UInt64) {table : UInt8} (h : table < 3) (rest : Bytes) :
    ¬ KeyOf repo (table :: rest) := by
  rintro ⟨table', rest', hle, hkey⟩
  rw [← (List.cons.inj hkey).1] at hle
  exact UInt8.not_le.mpr h hle

theorem not_keyOf_repoIndex (repo : UInt64) (path : String) : ¬ KeyOf repo (repoIndex path) :=
  not_keyOf_of_lt repo (by decide) _

theorem not_keyOf_nextRepoId (repo : UInt64) : ¬ KeyOf repo nextRepoId :=
  not_keyOf_of_lt repo (by decide) _

theorem ReadKey.keyOf (h : ReadKey repo key) : KeyOf repo key := by
  cases h with
  | object oid => exact keyOf_obj repo oid
  | head => exact ⟨prefixRepoMeta, [repoMetaHead], by decide, rfl⟩
  | ref h =>
    obtain ⟨rest, rfl⟩ := h
    exact ⟨prefixRef, rest, by decide, rfl⟩
  | @parent c _ h =>
    obtain ⟨rest, rfl⟩ := h
    exact ⟨prefixPar, c.bytes ++ rest, by decide, by simp [parentsPrefixStart]⟩

theorem HoldsRepo.congr (h : HoldsRepo content s repo r)
    (hsame : ∀ key, ReadKey repo key → t[key]? = s[key]?) : HoldsRepo content t repo r where
  object oid := (hsame _ (.object oid)).trans (h.object oid)
  parentKey c key hkey := (hsame _ (.parent hkey)).trans (h.parentKey c key hkey)
  refs := by
    rw [← h.refs]
    funext name
    have hname : refsPrefixStart repo <+: refkey repo name := ⟨utf8 name, rfl⟩
    rw [refMap, refMap, hsame _ (.ref hname)]
  refKey key value hget hkey := h.refKey key value ((hsame _ (.ref hkey)).symm.trans hget) hkey
  head := (hsame _ .head).trans h.head

theorem Intact.congr (h : Intact content s)
    (hsame : ∀ repo key, ReadKey repo key → t[key]? = s[key]?) : Intact content t where
  stored repo c := (h.stored repo c).imp
    (fun habsent key hkey => (hsame repo key (.parent hkey)).trans (habsent key hkey))
    fun hstored key hkey => (hsame repo key (.parent hkey)).trans (hstored key hkey)
  refs repo name v hv := h.refs repo name v ((hsame repo _ (.ref ⟨utf8 name, rfl⟩)).symm.trans hv)

theorem Moves.refl (hintact : Intact content s) (h : HoldsRepo content s repo r) :
    Moves content s s repo r :=
  ⟨hintact, h, fun _ => rfl⟩

theorem Moves.other {repo' : UInt64} {r' : Repository} (h : Moves content s t repo r)
    (hne : repo' ≠ repo) (hother : HoldsRepo content s repo' r') : HoldsRepo content t repo' r' :=
  hother.congr fun _ hkey => h.frame fun hown => hne (hkey.keyOf.eq hown)

theorem WellFormed.of_represents {refs : RefMap UInt64} (h : Represents s refs) : WellFormed s := by
  intro repo name v hget
  rw [h] at hget
  obtain ⟨oid, -, rfl⟩ := Option.map_eq_some_iff.mp hget
  exact oid.length_eq

/-! ### The operations that write -/

theorem parentKey_ingestPack (h : Stored content s) (oids : List ObjectId) {c : ObjectId}
    (hkey : parentsPrefixStart repo c <+: key) : (ingestPack content s repo oids)[key]? =
      if c ∈ oids then (Lock.applyWrites (∅ : Store) (parentWrites content repo c))[key]? else s[key]? := by
  split
  · rename_i hc
    exact parents_ingestPack_of_mem content h repo hc hkey
  · rename_i hc
    exact parents_ingestPack_of_notMem content h repo hc hkey

theorem HoldsRepo.ingestPack (hintact : Intact content s) (h : HoldsRepo content s repo r)
    (oids : List ObjectId) :
    Moves content s (ingestPack content s repo oids) repo (r.after (.ingestPack oids)) := by
  have hget : ∀ {key}, (∀ oid, key ≠ obj repo oid) → (∀ c pos, key ≠ par repo c pos) →
      (Kv.ingestPack content s repo oids)[key]? = s[key]? := by
    intro key hobj hpar
    refine Lock.get_applyWrites_of_notMem s _ key fun w hw hkey => ?_
    obtain ⟨oid, -, hw⟩ := List.mem_flatMap.mp hw
    rcases key_of_mem_objectWrites content hw with hw | hw
    · exact hobj oid (hkey.symm.trans hw)
    · obtain ⟨pos, hw⟩ := key_of_mem_parentWrites content hw
      exact hpar oid pos (hkey.symm.trans hw)
  refine ⟨⟨stored_ingestPack content hintact.stored repo oids, fun repo' name v hv => ?_⟩,
    ⟨fun oid => ?_, fun c key hkey => ?_, ?_, fun key value hv hkey => ?_, ?_⟩, fun {key} hkey => ?_⟩
  · rw [refs_ingestPack] at hv
    exact hintact.refs repo' name v hv
  · rw [get_obj_ingestPack, h.object]
    by_cases hold : oid ∈ r.objects <;> simp [Repository.after, hold]
  · rw [parentKey_ingestPack hintact.stored oids hkey, h.parentKey c key hkey]
    by_cases hold : c ∈ r.objects <;> simp [Repository.after, hold]
  · rw [refMap_ingestPack, h.refs]
    rfl
  · obtain ⟨rest, rfl⟩ := hkey
    rw [hget (fun oid => by simp [refsPrefixStart, obj, prefixRef, prefixObj])
      (fun c pos => by simp [refsPrefixStart, par, prefixRef, prefixPar])] at hv
    exact h.refKey _ value hv ⟨rest, rfl⟩
  · rw [hget (fun oid => by simp [repoMeta, obj, prefixRepoMeta, prefixObj])
      (fun c pos => by simp [repoMeta, par, prefixRepoMeta, prefixPar]), h.head]
  · exact hget (fun oid heq => hkey (heq ▸ keyOf_obj repo oid)) fun c pos heq => hkey (heq ▸ keyOf_par repo c pos)

theorem HoldsRepo.updateRefs (hintact : Intact content s) (h : HoldsRepo content s repo r)
    {us : List RefUpdate} (hnames : (us.map (·.refname)).Nodup) :
    Moves content s (updateRefs mode s repo us).1 repo (r.after (.updateRefs us)) ∧
      ((∀ u ∈ us, r.refMap.Expects () u) → (updateRefs mode s repo us).2 = .ok ()) ∧
      (¬ (∀ u ∈ us, r.refMap.Expects () u) → ∃ e, (updateRefs mode s repo us).2 = .error e) := by
  have himpl := updateRefs_implements mode (represents_refMap hintact.refs) repo hnames
  obtain ⟨refs', hrep, hown, -, hyes, hno⟩ := Repository.updateRefs_spec himpl (represents_refMap hintact.refs) h.refs
  -- the transaction writes refs of the repository, or nothing
  have hafter : (Kv.updateRefs mode s repo us).1 = Lock.applyWrites s (batchWrites repo us) ∨
      (Kv.updateRefs mode s repo us).1 = s := by
    by_cases hall : ∀ u ∈ us, Expected s repo u
    · exact Or.inl (by rw [updateRefs_of_expected mode hnames hall])
    · obtain ⟨e, he⟩ := updateRefs_of_not_expected mode hnames hall
      exact Or.inr (by rw [he])
  have hget : ∀ {key}, (∀ name, key ≠ refkey repo name) → (Kv.updateRefs mode s repo us).1[key]? = s[key]? := by
    intro key hkey
    rcases hafter with hafter | hafter
    · rw [hafter]
      refine Lock.get_applyWrites_of_notMem s _ key fun w hw heq => ?_
      obtain ⟨u, -, rfl⟩ := List.mem_map.mp hw
      exact hkey u.refname heq.symm
    · rw [hafter]
  have hstored : Stored content (Kv.updateRefs mode s repo us).1 := by
    rcases hafter with hafter | hafter
    · rw [hafter]
      exact stored_batchWrites content hintact.stored repo us
    · rw [hafter]
      exact hintact.stored
  refine ⟨⟨⟨hstored, .of_represents hrep⟩, ⟨fun oid => ?_, fun c key hkey => ?_, by rw [refMap_eq hrep, hown],
    fun key value hv hkey => ?_, ?_⟩, fun {key} hkey => ?_⟩, hyes, fun hnot => (hno hnot).2⟩
  · rw [hget fun name heq => refkey_ne_obj repo repo name oid heq.symm, Repository.objects_updateRefs]
    exact h.object oid
  · rw [Repository.objects_updateRefs, hget, h.parentKey c key hkey]
    rintro name rfl
    exact prefixPar_ne (by decide) hkey
  · by_cases hname : ∃ name, key = refkey repo name
    · exact hname
    · push Not at hname
      rw [hget hname] at hv
      exact h.refKey key value hv hkey
  · rw [hget fun name => by simp [repoMeta, refkey, prefixRepoMeta, prefixRef], h.head]
  · exact hget fun name heq => hkey (heq ▸ keyOf_refkey repo name)

/-! ### The operations that read -/

namespace HoldsRepo

/-- **The parents are read in order.** -/
theorem fetchParents_eq (hfew : ∀ c, (content c).parents.length ≤ 65536)
    (h : HoldsRepo content s repo r) (c : ObjectId) :
    fetchParents s repo c = .ok (r.parents content c) := by
  rw [Repository.parents]
  split
  · rename_i hc
    rw [fetchParents_congr fun key hkey => (h.parentKey c key hkey).trans (if_pos hc)]
    exact fetchParents_parentWrites content repo (hfew c)
  · rename_i hc
    exact fetchParents_of_absent fun key hkey => (h.parentKey c key hkey).trans (if_neg hc)

theorem parentsAre (hfew : ∀ c, (content c).parents.length ≤ 65536)
    (h : HoldsRepo content s repo r) : ParentsAre s repo (r.parents content) :=
  fun c => ⟨_, h.fetchParents_eq hfew c, fun _ => Iff.rfl⟩

theorem holds (hfew : ∀ c, (content c).parents.length ≤ 65536) (hintact : Intact content s)
    (h : HoldsRepo content s repo r) {o : Objects} (hbacks : r.Backs content p o) :
    Holds content p o s repo where
  found {oid obj'} hfind := by
    obtain ⟨hstored, hreads, -⟩ := hbacks.stored hfind
    exact ⟨(content oid).kind, (content oid).data, by rw [h.object, if_pos hstored], hreads⟩
  parents c hc := ⟨_, h.fetchParents_eq hfew c, fun q => by rw [hbacks.parents_eq hc]⟩
  written c hc key := by
    obtain ⟨obj', hobj⟩ := Option.ne_none_iff_exists'.mp hc
    have hstored := (hbacks.stored hobj).1
    by_cases hkey : key = obj repo c
    · rw [hkey, get_obj_objectWrites, if_pos rfl, h.object, if_pos hstored]
    · by_cases hpar : parentsPrefixStart repo c <+: key
      · rw [parents_objectWrites content hintact.stored repo c hpar, if_pos ⟨rfl, rfl⟩,
          h.parentKey c key hpar, if_pos hstored]
      · refine Lock.get_applyWrites_of_notMem s _ key fun w hw heq => ?_
        rcases key_of_mem_objectWrites content hw with hw | hw
        · exact hkey (heq.symm.trans hw)
        · obtain ⟨pos, hw⟩ := key_of_mem_parentWrites content hw
          exact hpar (heq ▸ hw ▸ ⟨be16 pos, rfl⟩)

theorem resolveRef_eq (hintact : Intact content s) (h : HoldsRepo content s repo r)
    (name : String) : resolveRef s repo name = .ok (r.refs name) := by
  rw [resolveRef, represents_refMap hintact.refs, decodeRef_map, h.refs]

theorem readObjectWithKind_eq (h : HoldsRepo content s repo r) (oid : ObjectId) (cap : Nat) :
    readObjectWithKind s repo oid cap =
      .ok ((r.read content oid cap).map fun data => (kindByte (content oid).kind, data)) := by
  rw [readObjectWithKind, h.object, Repository.read]
  by_cases hstored : oid ∈ r.objects
  · simp only [hstored, if_true, encodeObject, true_and, ← Nat.not_lt]
    split_ifs <;> rfl
  · simp [hstored]

theorem readObjectCapped_eq (h : HoldsRepo content s repo r) (oid : ObjectId) (cap : Nat) :
    readObjectCapped s repo oid cap = .ok (r.read content oid cap) := by
  rw [readObjectCapped, h.readObjectWithKind_eq]
  cases r.read content oid cap <;> rfl

theorem readBlob_eq (h : HoldsRepo content s repo r) (oid : ObjectId) (cap : Nat) :
    readBlob s repo oid cap = .ok (if (content oid).kind = .blob then r.read content oid cap
      else none) := by
  rw [readBlob, h.readObjectWithKind_eq]
  cases r.read content oid cap with
  | none => simp [Except.map]
  | some data => simp [Except.map, kindByte_inj]

theorem hasObject_eq (h : HoldsRepo content s repo r) (oid : ObjectId) :
    hasObject s repo oid = decide (oid ∈ r.objects) := by
  rw [hasObject, h.object]
  split <;> simp_all

theorem readObjectRaw_eq (h : HoldsRepo content s repo r) (oid : ObjectId) :
    readObjectRaw s repo oid = .ok (if oid ∈ r.objects then some (content oid).data else none) := by
  rw [readObjectRaw, h.object]
  by_cases hstored : oid ∈ r.objects <;> simp [hstored, encodeObject]

end HoldsRepo

/-- The name and the oid of a pair of the scan over the refs. -/
def pairInfo (repoId : UInt64) (pair : Bytes × Bytes) : RefInfo :=
  ⟨(refnameFromKey repoId pair.1).getD "", (ObjectId.tryFrom pair.2).getD .null, none, none⟩

theorem HoldsRepo.decodeRefPair_eq (hintact : Intact content s) (h : HoldsRepo content s repo r)
    {pair : Bytes × Bytes} (hget : s[pair.1]? = some pair.2)
    (hkey : refsPrefixStart repo <+: pair.1) :
    decodeRefPair repo pair = .ok (pairInfo repo pair) ∧ pair.1 =
      refkey repo (pairInfo repo pair).name ∧
      r.refs (pairInfo repo pair).name = some (pairInfo repo pair).oid := by
  obtain ⟨name, hname⟩ := h.refKey pair.1 pair.2 hget hkey
  have hlength := hintact.refs repo name pair.2 (hname ▸ hget)
  have hoid : ObjectId.tryFrom pair.2 = some ⟨pair.2, hlength⟩ := dif_pos hlength
  have hinfo : pairInfo repo pair = ⟨name, ⟨pair.2, hlength⟩, none, none⟩ := by
    rw [pairInfo, hname, refnameFromKey_refkey, hoid, Option.getD_some, Option.getD_some]
  refine ⟨?_, by rw [hinfo, hname], ?_⟩
  · rw [decodeRefPair, hinfo, hname, refnameFromKey_refkey]
    simp only [hoid]
  · rw [hinfo, ← h.refs, refMap, ← hname, hget, Option.bind_some, hoid]

/-- **The listing has every ref once**, if the scan does not stop at its limit. -/
theorem HoldsRepo.listRefs_ok (hintact : Intact content s) (h : HoldsRepo content s repo r)
    (hfew : {name | r.refs name ≠ none}.ncard < 2 ^ 32)
    (hfinite : {name | r.refs name ≠ none}.Finite) :
    ∃ snapshot, listRefs s repo = .ok snapshot ∧ r.Lists snapshot := by
  obtain ⟨pairs, hpairs⟩ : ∃ pairs, pairs =
    (s.filter fun key _ => Between (refsPrefixStart repo) (refsPrefixEnd repo) key).toList := ⟨_, rfl⟩
  have hmem : ∀ pair, pair ∈ pairs ↔ s[pair.1]? = some pair.2 ∧ refsPrefixStart repo <+: pair.1 := by
    intro pair
    rw [hpairs, ← Prod.mk.eta (p := pair), Std.ExtTreeMap.mem_toList_iff_getElem?_eq_some,
      Std.ExtTreeMap.getElem?_filter',
      Option.filter_eq_some_iff, decide_eq_true_iff, between_refs_iff]
  have hinfo := fun pair hpair => h.decodeRefPair_eq hintact ((hmem pair).mp hpair).1 ((hmem pair).mp hpair).2
  have hnames : (pairs.map fun pair => (pairInfo repo pair).name).Nodup := by
    have hkeys : (pairs.map Prod.fst).Nodup := keys_nodup (hpairs ▸ Std.ExtTreeMap.ordered_keys_toList)
    rw [List.map_congr_left fun pair hpair => (hinfo pair hpair).2.1] at hkeys
    refine List.Nodup.of_map (refkey repo) ?_
    rwa [List.map_map]
  have hscan : scan s (refsPrefixStart repo) (refsPrefixEnd repo) (2 ^ 32 - 1) = pairs := by
    rw [scan, ← hpairs]
    refine List.take_of_length_le ?_
    have hsub : ((pairs.map fun pair => (pairInfo repo pair).name).toFinset : Set String) ⊆
        {name | r.refs name ≠ none} := by
      intro name hname
      rw [List.coe_toFinset] at hname
      obtain ⟨pair, hpair, rfl⟩ := List.mem_map.mp hname
      rw [Set.mem_ofPred_eq, (hinfo pair hpair).2.2]
      exact Option.some_ne_none _
    have hcard := Set.ncard_le_ncard hsub hfinite
    rw [Set.ncard_coe_finset, List.toFinset_card_of_nodup hnames, List.length_map] at hcard
    omega
  have hmap : pairs.mapM (decodeRefPair repo) = .ok (pairs.map (pairInfo repo)) :=
    mapM_of_ok fun pair hpair => (hinfo pair hpair).1
  have hlists : ∀ info, info ∈ pairs.map (pairInfo repo) ↔
      r.refs info.name = some info.oid ∧ info.peeled = none ∧ info.symrefTarget = none := by
    intro info
    rw [List.mem_map]
    constructor
    · rintro ⟨pair, hpair, rfl⟩
      exact ⟨(hinfo pair hpair).2.2, rfl, rfl⟩
    · rintro ⟨href, hpeeled, hsymref⟩
      refine ⟨(refkey repo info.name, info.oid.bytes), (hmem _).mpr ⟨?_, ⟨utf8 info.name, rfl⟩⟩, ?_⟩
      · rw [represents_refMap hintact.refs, h.refs, href, Option.map_some]
      · rw [pairInfo, refnameFromKey_refkey, ObjectId.tryFrom_bytes, Option.getD_some,
          Option.getD_some, ← hpeeled, ← hsymref]
  refine ⟨⟨_, pairs.map (pairInfo repo)⟩, ?_, ⟨List.Nodup.of_map RefInfo.name (by rwa [List.map_map]), hlists,
    Repository.head_of_find hlists⟩⟩
  rw [listRefs, hscan, hmap, h.head]
  rfl

theorem withinCap_of_admits {tips excluding listed : List ObjectId} {exclude : Finset ObjectId}
    {enough : Nat} {cap : Option Nat}
    (hw : Walked (r.parents content) tips excluding exclude listed enough)
    (hadmits : r.Admits content codec (.reachableExcluding tips excluding cap)) :
    (if tips = [] then .ok [] else withinCap cap (max listed.length exclude.card) listed) =
      withinCap cap listed.length listed := by
  split
  · rename_i hnil
    subst hnil
    rw [hw.listed_eq_nil]
    cases cap <;> rfl
  · rename_i hsome
    refine ((withinCap_eq_iff (le_max_left _ _)).mpr fun limit hcap => ?_).symm
    have hlimit := hadmits.resolve_left hsome limit hcap
    rw [hw.ncard_exclude, hw.ncard_listed] at hlimit
    omega

theorem HoldsRepo.fetch_eq (h : HoldsRepo content s repo r) (oid : ObjectId) :
    readObjectWithGixKind s repo oid =
    if oid ∈ r.objects then some ((content oid).kind, (content oid).data) else none := by
  rw [readObjectWithGixKind, h.object]
  by_cases hstored : oid ∈ r.objects <;> simp [hstored, encodeObject, kindOfByte_kindByte]

theorem HoldsRepo.readTree_eq (h : HoldsRepo content s repo r) (oid : ObjectId) :
    (readTree s repo oid).toOption = r.trees content oid := by
  rw [readTree, readObjectOfKind, h.object, Repository.trees]
  by_cases hstored : oid ∈ r.objects
  · by_cases hkind : (content oid).kind = .tree
    · simp [hstored, encodeObject, hkind, Except.toOption]
    · simp [hstored, encodeObject, kindByte_inj, hkind, Except.toOption]
  · simp [hstored, Except.toOption]

/-- **An operation does what is specified**, and leaves the other repositories alone. -/
theorem HoldsRepo.runOperation (hfew : ∀ c, (content c).parents.length ≤ 65536)
    (hintact : Intact content s) (h : HoldsRepo content s repo r) {dir : CacheDir}
    (hcaches : r.Caches content codec.parser (dir.files repo) (cacheKey codec.sha256 repo))
    {op : Storage.Operation} (hadmits : r.Admits content codec op) :
    ∃ s' dir' reply enough, (∀ fuel, enough ≤ fuel →
        runOperation content codec mode fuel dir repo op s = (s', some (dir', reply))) ∧
      Moves content s s' repo (r.after op) ∧ Repository.CacheMoves content codec dir dir' repo (r.after op) ∧
      r.Replies content codec reply op := by
  have hstay := Moves.refl hintact h
  have hcache := Repository.CacheMoves.refl hcaches op
  cases op with
  | listRefs =>
    obtain ⟨snapshot, hlist, hlists⟩ := h.listRefs_ok hintact hadmits.1 hadmits.2
    exact ⟨s, dir, .refs snapshot, 0, fun _ _ => by
      rw [Kv.runOperation, hlist]; rfl, hstay, hcache, snapshot, rfl, hlists⟩
  | resolveRef refname =>
    refine ⟨s, dir, .ref (r.refs refname), 0, fun _ _ => ?_, hstay, hcache, rfl⟩
    rw [Kv.runOperation, h.resolveRef_eq hintact]
    rfl
  | updateRefs updates =>
    obtain ⟨hmoves, hyes, hno⟩ := h.updateRefs hintact hadmits.1
    exact ⟨_, dir, _, 0, fun _ _ => rfl, hmoves, hcache, .updateRefs hyes hno⟩
  | hasObject oid =>
    refine ⟨s, dir, _, 0, fun _ _ => rfl, hstay, hcache, ?_⟩
    rw [Repository.Replies, h.hasObject_eq]
  | hasObjects oids =>
    refine ⟨s, dir, _, 0, fun _ _ => rfl, hstay, hcache, ?_⟩
    rw [Repository.Replies]
    exact congrArg Reply.found (List.map_congr_left fun oid _ => h.hasObject_eq oid)
  | readBlob oid cap =>
    exact ⟨s, dir, _, 0, fun _ _ => rfl, hstay, hcache, congrArg (Reply.ofResult .data) (h.readBlob_eq oid cap)⟩
  | readObjectRaw oid cap =>
    exact ⟨s, dir, _, 0, fun _ _ => rfl, hstay, hcache,
      congrArg (Reply.ofResult .data) (h.readObjectCapped_eq oid cap)⟩
  | readCommitInfo oid =>
    refine ⟨s, dir, _, 0, fun _ _ => rfl, hstay, hcache, ?_⟩
    rw [Repository.Replies, readCommitInfo, h.readObjectRaw_eq]
    split <;> first | rfl | exact ⟨_, rfl⟩
  | ingestPack oids => exact ⟨_, dir, _, 0, fun _ _ => rfl, h.ingestPack hintact oids, hcache, rfl⟩
  | computePushKind oldOid newOid =>
    exact ⟨s, dir, _, 0, fun _ _ => rfl, hstay, hcache, _, rfl,
      (h.parentsAre hfew).computePushKind_tells oldOid newOid⟩
  | reachableExcluding tips excluding cap =>
    obtain ⟨R, hR⟩ := exists_finite (h.fetchParents_eq hfew)
    obtain ⟨exclude, listed, enough, hw⟩ := exists_walked hR tips excluding
    have hrun := reachableExcluding_eq (h.fetchParents_eq hfew) hw
    refine ⟨s, dir, _, enough, fun fuel hfuel => ?_, hstay, hcache, exclude, listed, enough, hw, rfl⟩
    rw [Kv.runOperation, hrun fuel hfuel cap, withinCap_of_admits hw hadmits, Option.map_some]
  | buildPack request =>
    obtain ⟨dir', pack, enough, hrun, hmoves, hreply⟩ := hcaches.buildPack hadmits fun o ho =>
      ho.packObjects_ends ((h.holds hfew hintact ho.1).selectObjects_ends ho.1.sealed ho.2.1 ho.2.2)
        fun _ => h.fetch_eq
    refine ⟨s, dir', .pack pack, enough,
      fun fuel hfuel => ?_, .refl hintact ⟨h.object, h.parentKey, h.refs, h.refKey, h.head⟩,
      hmoves, hreply⟩
    rw [Kv.runOperation, buildPack, hrun fuel hfuel]
    rfl
  | treeDiff parentTree childTree =>
    obtain ⟨result, enough, hrun, htells⟩ := treeDiff_tells h.readTree_eq
      (fun _ => Repository.mem_objects_of_trees) parentTree childTree
    refine ⟨s, dir, .ofResult .diff result, enough, fun fuel hfuel => ?_, hstay, hcache, result, rfl, htells⟩
    rw [Kv.runOperation, hrun fuel hfuel, Option.map_some]

/-! ### All repositories -/

variable (content) in
/-- The keys stand for the repositories, which were initialised in the order of `paths`. -/
structure Stands (s : Store) (repos : Repositories) (paths : List String) : Prop where
  enumerates : Enumerates paths repos
  counter : nextId s = .ok (idAt paths.length)
  known : ∀ i path, paths[i]? = some path → s[repoIndex path]? = some (encodeU64 (idAt i))
  unknown : ∀ path, repos path = none → s[repoIndex path]? = none
  intact : Intact content s
  holds : ∀ i, i < 2 ^ 63 → HoldsRepo content s (idAt i) (repoAt repos paths i)

namespace Stands

variable {repos : Repositories} {paths : List String}

theorem get_allocWrites (s : Store) (path : String) (next : UInt64) (hkey : ReadKey repo key) :
    (Lock.applyWrites s (allocWrites path next))[key]? = s[key]? := by
  have hmeta : key ≠ repoMeta next repoMetaExists := by
    rintro rfl
    have hkeys := hkey
    generalize hmeta : repoMeta next repoMetaExists = key at hkeys
    cases hkeys with
    | object oid => simp [repoMeta, obj, prefixRepoMeta, prefixObj] at hmeta
    | head =>
      have hrest := (List.cons.inj hmeta).2
      have htag := (be64_append_inj hrest).2
      exact absurd htag (by decide)
    | ref h =>
      obtain ⟨rest, rfl⟩ := h
      simp [repoMeta, refsPrefixStart, prefixRepoMeta, prefixRef] at hmeta
    | parent h =>
      obtain ⟨rest, rfl⟩ := h
      simp [repoMeta, parentsPrefixStart, prefixRepoMeta, prefixPar] at hmeta
  refine Lock.get_applyWrites_of_notMem s _ key fun w hw heq => ?_
  simp only [allocWrites, List.mem_cons, List.not_mem_nil, or_false] at hw
  rcases hw with rfl | rfl | rfl
  · obtain rfl : nextRepoId = key := heq
    exact not_keyOf_nextRepoId repo hkey.keyOf
  · obtain rfl : repoIndex path = key := heq
    exact not_keyOf_repoIndex repo path hkey.keyOf
  · exact hmeta heq.symm

theorem initRepo (h : Stands content s repos paths)
    (hroom : (Request.initRepo path).Admitted content codec repos) :
    ∃ id paths', (initRepo s path).2 = .ok id ∧
      Stands content (initRepo s path).1 ((Request.initRepo path).after repos) paths' ∧
      ∀ i, repoAt ((Request.initRepo path).after repos) paths' i = repoAt repos paths i := by
  cases hpath : repos path with
  | some r =>
    obtain ⟨i, hi⟩ := List.mem_iff_getElem?.mp ((h.enumerates.mem path).mp (by simp [hpath]))
    have hrun : Kv.initRepo s path = (s, .ok (idAt i)) := by
      rw [Kv.initRepo, h.known i path hi]
      simp only [decodeU64_encodeU64]
      rfl
    refine ⟨idAt i, paths, by rw [hrun], ?_⟩
    rw [hrun, Enumerates.initRepo_known (by simp [hpath])]
    exact ⟨h, fun _ => rfl⟩
  | none =>
    have hrun : Kv.initRepo s path =
        (Lock.applyWrites s (allocWrites path (idAt paths.length)), .ok (idAt paths.length)) := by
      rw [Kv.initRepo, h.unknown path hpath, h.counter]
    obtain ⟨henumerates, hrepoAt⟩ := h.enumerates.initRepo_new hpath hroom
    have hnew : path ∉ paths := fun hmem => (h.enumerates.mem path).mpr hmem hpath
    refine ⟨idAt paths.length, paths ++ [path], by rw [hrun], ?_, hrepoAt⟩
    rw [hrun]
    refine ⟨henumerates, ?_, fun i path' hi => ?_, fun path' hpath' => ?_,
      h.intact.congr fun repo key hkey => get_allocWrites s path _ hkey, fun i hi => ?_⟩
    · rw [nextId_allocWrites, List.length_append, List.length_singleton, idAt, idAt,
        UInt64.ofNat_add (paths.length + 1)]
      rfl
    · rw [repoIndex_allocWrites]
      rcases Nat.lt_or_ge i paths.length with hlt | hge
      · rw [List.getElem?_append_left hlt] at hi
        have hne : path' ≠ path := fun heq => hnew (heq ▸ List.mem_of_getElem? hi)
        rw [if_neg hne]
        exact h.known i path' hi
      · obtain ⟨hlt, hat⟩ := List.getElem?_eq_some_iff.mp hi
        obtain rfl : i = paths.length := by
          rw [List.length_append, List.length_singleton] at hlt
          omega
        rw [List.getElem_concat_length rfl] at hat
        rw [if_pos hat.symm]
    · have hne : path' ≠ path := by
        rintro rfl
        simp [Request.after] at hpath'
      rw [Request.after, Function.update_of_ne hne] at hpath'
      rw [repoIndex_allocWrites, if_neg hne]
      exact h.unknown path' hpath'
    · rw [hrepoAt]
      exact (h.holds i hi).congr fun key hkey => get_allocWrites s path _ hkey

theorem opened (h : Stands content s repos paths) {r : Repository} (hpath : repos path = some r) :
    ∃ i, paths[i]? = some path ∧ openRepo s path = .ok (idAt i) ∧
      HoldsRepo content s (idAt i) r := by
  obtain ⟨i, hi⟩ := List.mem_iff_getElem?.mp ((h.enumerates.mem path).mp (by simp [hpath]))
  have hholds := h.holds i ((List.getElem?_eq_some_iff.mp hi).1.trans h.enumerates.few)
  rw [Enumerates.repoAt_eq hi hpath] at hholds
  refine ⟨i, hi, ?_, hholds⟩
  rw [openRepo, h.known i path hi]
  simp only [decodeU64_encodeU64]
  rfl

theorem moves (h : Stands content s repos paths) {i : Nat} (hi : paths[i]? = some path)
    {r : Repository} (hr : repos path = some r) {op : Storage.Operation} {s' : Store}
    (hmoves : Moves content s s' (idAt i) (r.after op)) :
    Stands content s' ((Request.on path op).after repos) paths := by
  obtain ⟨henumerates, hrepoAt⟩ := h.enumerates.on hi hr op
  have hlt : i < 2 ^ 63 := (List.getElem?_eq_some_iff.mp hi).1.trans h.enumerates.few
  have hindex : ∀ path', s'[repoIndex path']? = s[repoIndex path']? := fun path' =>
    hmoves.frame (not_keyOf_repoIndex _ path')
  refine ⟨henumerates, ?_, fun j path' hj => (hindex path').trans (h.known j path' hj), fun path' hpath' => ?_,
    hmoves.intact, fun j hj => ?_⟩
  · rw [nextId, hmoves.frame (not_keyOf_nextRepoId _), ← nextId, h.counter]
  · rw [hindex]
    refine h.unknown path' (not_not.mp fun hsome => ?_)
    exact (henumerates.mem path').mpr ((h.enumerates.mem path').mp hsome) hpath'
  · rw [hrepoAt]
    split
    · rename_i hsame
      rw [hsame]
      exact hmoves.holds
    · rename_i hne
      exact hmoves.other (fun heq => hne (idAt_inj hj hlt heq)) (h.holds j hj)

end Stands

/-- **The KV backend does what is specified**, for any requests to any repositories. -/
theorem implements_spec (hfew : ∀ c, (content c).parents.length ≤ 65536) :
    (serve content codec mode).Implements (spec content codec)
      (Backend.Stands content codec (Stands content)) := by
  refine implements_of (fun h => h.enumerates) ?_ ?_ ?_
  · intro s repos paths path h hroom
    obtain ⟨id, paths', hid, hstands⟩ := h.initRepo hroom
    exact ⟨by rw [hid]; rfl, paths', hstands⟩
  · intro s repos paths path h hpath
    exact ⟨path.quote ++ " does not appear to be a git repository", by rw [openRepo, h.unknown path hpath]⟩
  · intro s repos paths path r h hpath
    obtain ⟨i, hi, hopen, hholds⟩ := h.opened hpath
    refine ⟨i, idAt i, hi, hopen, fun op dir hadmits hcaches => ?_⟩
    obtain ⟨s', dir', reply, enough, hrun, hmoves, hcache, hreply⟩ := hholds.runOperation hfew h.intact hcaches hadmits
    exact ⟨s', dir', reply, enough, hrun, h.moves hi hpath hmoves, hcache, hreply⟩

end Mizzle.Kv
