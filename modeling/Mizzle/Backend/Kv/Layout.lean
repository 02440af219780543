import Mizzle.Backend.Kv.Operations
import Mizzle.Lib.ByteOrder

/-!
# Tables and repositories are apart

The logical keys of `mizzle/src/backend/kv/keys.rs` and what follows from their layout: different
keys have different encodings, the range of a scan holds the keys it is meant for and no others, and
an operation on a repository neither reads nor writes a key that belongs to another one (`Local`).
The last point is shown for each of the operations from its own reads and writes: the walks read
through `fetch_parents`, pack assembly and the tree diff through the object keys too.
-/

namespace Mizzle.Kv

open Lib Pack Storage

/-- The keys of the six tables. -/
inductive Key where
  | repoIndex (path : String)
  | nextRepoId
  | repoMeta (repoId : UInt64) (tag : UInt8)
  | ref (repoId : UInt64) (name : String)
  | obj (repoId : UInt64) (oid : ObjectId)
  | par (repoId : UInt64) (commitOid : ObjectId) (pos : UInt16)

variable {k : Key} {key : Bytes}

namespace Key

def encode : Key → Bytes
  | .repoIndex path => Kv.repoIndex path
  | .nextRepoId => Kv.nextRepoId
  | .repoMeta repoId tag => Kv.repoMeta repoId tag
  | .ref repoId name => refkey repoId name
  | .obj repoId oid => Kv.obj repoId oid
  | .par repoId commitOid pos => Kv.par repoId commitOid pos

/-- The repository that a key belongs to. The index of paths and the counter belong to none. -/
def repo : Key → Option UInt64
  | .repoIndex _ | .nextRepoId => none
  | .repoMeta repoId _ | .ref repoId _ | .obj repoId _ | .par repoId _ _ => some repoId

def table : Key → UInt8
  | .repoIndex _ => prefixRepoIndex
  | .nextRepoId => prefixNextRepoId
  | .repoMeta .. => prefixRepoMeta
  | .ref .. => prefixRef
  | .obj .. => prefixObj
  | .par .. => prefixPar

theorem head?_encode (k : Key) : k.encode.head? = some k.table := by cases k <;> rfl

theorem table_eq_of_prefix {b : UInt8} {rest : Bytes} (h : b :: rest <+: k.encode) :
    k.table = b := by
  obtain ⟨suffix, hsuffix⟩ := h
  have hhead := k.head?_encode
  rw [← hsuffix] at hhead
  exact (Option.some.inj hhead).symm

end Key

/-! ### Different keys -/

theorem be16_injective {a b : UInt16} (h : be16 a = be16 b) : a = b :=
  UInt16.toNat_inj.mp (bigEndian_injective (w := 2) a.toNat_lt b.toNat_lt h)

theorem repoIndex_inj {p q : String} (h : repoIndex p = repoIndex q) : p = q := by
  rw [repoIndex, repoIndex, List.cons.injEq] at h
  exact utf8_injective h.2

theorem repoMeta_inj {r r' : UInt64} {t t' : UInt8} (h : repoMeta r t = repoMeta r' t') :
    r = r' ∧ t = t' := by
  simp only [repoMeta, List.cons_append, List.cons.injEq, true_and] at h
  obtain ⟨hrepo, htag⟩ := be64_append_inj h
  exact ⟨hrepo, by simpa using htag⟩

theorem par_inj {r r' : UInt64} {c c' : ObjectId} {p p' : UInt16} (h : par r c p = par r' c' p') :
    r = r' ∧ c = c' ∧ p = p' := by
  have hprefix : parentsPrefixStart r c <+: par r' c' p' := h ▸ ⟨be16 p, by simp [parentsPrefixStart, par]⟩
  obtain ⟨rfl, rfl⟩ := parentsPrefixStart_prefix_par.mp hprefix
  exact ⟨rfl, rfl, be16_injective (List.append_cancel_left h)⟩

theorem encode_injective : Function.Injective Key.encode := by
  intro k k' h
  have htable : k.table = k'.table := by
    have hhead := congrArg List.head? h
    rw [k.head?_encode, k'.head?_encode] at hhead
    exact Option.some.inj hhead
  cases k <;> cases k' <;> first | (simp [Key.table, prefixRepoIndex, prefixNextRepoId,
    prefixRepoMeta, prefixRef, prefixObj, prefixPar] at htable; done) | skip
  · exact congrArg _ (repoIndex_inj h)
  · rfl
  · obtain ⟨rfl, rfl⟩ := repoMeta_inj h
    rfl
  · obtain ⟨rfl, rfl⟩ := refkey_inj.mp h
    rfl
  · obtain ⟨rfl, rfl⟩ := obj_inj.mp h
    rfl
  · obtain ⟨rfl, rfl, rfl⟩ := par_inj h
    rfl

/-! ### Ranges -/

theorem between_refs_iff {repoId : UInt64} :
    Between (refsPrefixStart repoId) (refsPrefixEnd repoId) key ↔ refsPrefixStart repoId <+: key :=
  between_iff_prefix (b := prefixRef) (by decide) _ key

theorem refsPrefixStart_prefix_iff {repoId : UInt64} :
    refsPrefixStart repoId <+: k.encode ↔ ∃ name, k = .ref repoId name := by
  constructor
  · intro h
    have htable := Key.table_eq_of_prefix h
    cases k with
    | ref r name =>
      obtain ⟨rest, hrest⟩ := h
      simp only [Key.encode, refsPrefixStart, refkey, List.cons_append, List.cons.injEq, true_and] at hrest
      obtain ⟨rfl, -⟩ := be64_append_inj hrest
      exact ⟨name, rfl⟩
    | _ => simp [Key.table, prefixRepoIndex, prefixNextRepoId, prefixRepoMeta, prefixRef, prefixObj,
      prefixPar] at htable
  · rintro ⟨name, rfl⟩
    exact ⟨utf8 name, rfl⟩

theorem parentsPrefixStart_prefix_iff {repoId : UInt64} {c : ObjectId} :
    parentsPrefixStart repoId c <+: k.encode ↔ ∃ pos, k = .par repoId c pos := by
  constructor
  · intro h
    have htable := Key.table_eq_of_prefix h
    cases k with
    | par r c' pos =>
      obtain ⟨rfl, rfl⟩ := parentsPrefixStart_prefix_par.mp h
      exact ⟨pos, rfl⟩
    | _ => simp [Key.table, prefixRepoIndex, prefixNextRepoId, prefixRepoMeta, prefixRef, prefixObj,
      prefixPar] at htable
  · rintro ⟨pos, rfl⟩
    exact parentsPrefixStart_prefix_par.mpr ⟨rfl, rfl⟩

theorem compare_par (repoId : UInt64) (c : ObjectId) (p q : UInt16) :
    compare (par repoId c p) (par repoId c q) = compare p.toNat q.toNat := by
  rw [par, par, compare_append_left]
  exact compare_bigEndian p.toNat_lt q.toNat_lt

theorem refnameFromKey_refkey (repoId : UInt64) (name : String) :
    refnameFromKey repoId (refkey repoId name) = some name := by
  have hsplit : refkey repoId name = refsPrefixStart repoId ++ utf8 name := rfl
  rw [refnameFromKey, hsplit, if_pos (List.prefix_append _ _), List.drop_left, fromUtf8_utf8]

/-! ### The operations on a repository -/

/-- The key belongs to another repository. -/
def Foreign (repoId : UInt64) (key : Bytes) : Prop :=
  ∃ k : Key, ∃ r, k.encode = key ∧ k.repo = some r ∧ r ≠ repoId

/-- The stores differ in keys of other repositories only. -/
def Agree (repoId : UInt64) (s t : Store) : Prop := ∀ key, ¬ Foreign repoId key → s[key]? = t[key]?

/-- An operation that writes no key of another repository, and whose answer and own writes do not
depend on them. -/
structure Local (repoId : UInt64) (op : Store → Store × α) : Prop where
  writes : ∀ s key, Foreign repoId key → (op s).1[key]? = s[key]?
  answer : ∀ s t, Agree repoId s t → (op s).2 = (op t).2
  own : ∀ s t, Agree repoId s t → Agree repoId (op s).1 (op t).1

theorem not_foreign_of_repo {repoId : UInt64} (h : k.repo = some repoId) :
    ¬ Foreign repoId k.encode := by
  rintro ⟨k', r, hkey, hrepo, hne⟩
  obtain rfl := encode_injective hkey
  exact hne (Option.some.inj (hrepo.symm.trans h))

theorem not_foreign_of_refs {repoId : UInt64} (h : refsPrefixStart repoId <+: key) :
    ¬ Foreign repoId key := by
  rintro ⟨k, r, rfl, hrepo, hne⟩
  obtain ⟨name, rfl⟩ := refsPrefixStart_prefix_iff.mp h
  exact hne (Option.some.inj hrepo.symm)

theorem not_foreign_of_parents {repoId : UInt64} {c : ObjectId}
    (h : parentsPrefixStart repoId c <+: key) : ¬ Foreign repoId key := by
  rintro ⟨k, r, rfl, hrepo, hne⟩
  obtain ⟨pos, rfl⟩ := parentsPrefixStart_prefix_iff.mp h
  exact hne (Option.some.inj hrepo.symm)

theorem Local.of_read {repoId : UInt64} {read : Store → α}
    (h : ∀ s t, Agree repoId s t → read s = read t) : Local repoId fun s => (s, read s) :=
  ⟨fun _ _ _ => rfl, h, fun _ _ hagree => hagree⟩

theorem search_mono {next : ι → Except ε (List ι)} [DecidableEq ι] {target : ι} {fuel fuel' : Nat}
    {seen queue : List ι} {r : Except ε Bool} (h : search next target fuel seen queue = some r)
    (hle : fuel ≤ fuel') : search next target fuel' seen queue = some r := by
  induction fuel generalizing fuel' seen queue with
  | zero => simp [search] at h
  | succ fuel ih =>
    obtain ⟨more, rfl⟩ := Nat.exists_eq_add_of_le' hle
    rw [← Nat.add_assoc, search]
    rw [search] at h
    split at h
    · exact h
    · exact ih h (by omega)

namespace Agree

variable {repoId : UInt64} {s t : Store}

theorem get (h : Agree repoId s t) (hk : k.repo = some repoId) : s[k.encode]? = t[k.encode]? :=
  h _ (not_foreign_of_repo hk)

theorem get_obj (h : Agree repoId s t) (oid : ObjectId) : s[obj repoId oid]? = t[obj repoId oid]? :=
  h.get (k := .obj repoId oid) rfl

theorem listRefs_eq (h : Agree repoId s t) : listRefs s repoId = listRefs t repoId := by
  have hscan := scan_congr (fun key hkey => h key (not_foreign_of_refs (between_refs_iff.mp hkey))) (2 ^ 32 - 1)
  have hhead : s[repoMeta repoId repoMetaHead]? = t[repoMeta repoId repoMetaHead]? :=
    h.get (k := .repoMeta repoId repoMetaHead) rfl
  rw [listRefs, hscan, hhead, listRefs]

theorem fetchParents_eq (h : Agree repoId s t) : fetchParents s repoId = fetchParents t repoId :=
  funext fun _ => fetchParents_congr fun key hkey => h key (not_foreign_of_parents hkey)

theorem isAncestor_eq (h : Agree repoId s t) (ancestor descendant : ObjectId) :
    isAncestor s repoId ancestor descendant = isAncestor t repoId ancestor descendant := by
  obtain ⟨r, hr⟩ := Option.ne_none_iff_exists'.mp (isAncestor_answers s repoId ancestor descendant)
  obtain ⟨r', hr'⟩ := Option.ne_none_iff_exists'.mp (isAncestor_answers t repoId ancestor descendant)
  have hsame : r = r' := by
    have hs := search_mono hr (Nat.le_max_left (s.size + 2) (t.size + 2))
    have ht := search_mono hr' (Nat.le_max_right (s.size + 2) (t.size + 2))
    rw [h.fetchParents_eq, ht] at hs
    exact (Option.some.inj hs).symm
  rw [isAncestor, isAncestor, hr, hr', hsame]

theorem reachableExcluding_eq (h : Agree repoId s t) (fuel : Nat) :
    reachableExcluding fuel s repoId = reachableExcluding fuel t repoId := by
  have hparents : ∀ pass, parentsFor pass s repoId = parentsFor pass t repoId := fun pass => by
    funext oid
    rw [parentsFor, h.fetchParents_eq, parentsFor]
  have hcollect : collectAncestors fuel s repoId = collectAncestors fuel t repoId := by
    funext cap set oid
    rw [collectAncestors, hparents, collectAncestors]
  funext tips excluding cap
  rw [reachableExcluding, hcollect, hparents, reachableExcluding]

theorem readObjectOfKind_eq (h : Agree repoId s t) :
    readObjectOfKind s repoId = readObjectOfKind t repoId := by
  funext oid kind
  rw [readObjectOfKind, h.get_obj, readObjectOfKind]

theorem readObjectWithKind_eq (h : Agree repoId s t) :
    readObjectWithKind s repoId = readObjectWithKind t repoId := by
  funext oid cap
  rw [readObjectWithKind, h.get_obj, readObjectWithKind]

theorem database_eq (h : Agree repoId s t) (p : Parser) (fuel : Nat) :
    database p fuel s repoId = database p fuel t repoId := by
  have hcommit : readCommitTree p s repoId = readCommitTree p t repoId := by
    funext oid
    rw [readCommitTree, readObjectRaw, h.get_obj, readCommitTree, readObjectRaw]
  have hitems : treeItems p s repoId = treeItems p t repoId := by
    funext oid
    rw [treeItems, h.readObjectOfKind_eq, treeItems]
  have hcollect : collectTreeOids p fuel s repoId = collectTreeOids p fuel t repoId := by
    funext set oid
    rw [collectTreeOids, hitems, collectTreeOids]
  have hfetch : readObjectWithGixKind s repoId = readObjectWithGixKind t repoId := by
    funext oid
    rw [readObjectWithGixKind, h.get_obj, readObjectWithGixKind]
  simp only [database, h.reachableExcluding_eq, hcommit, hcollect, hfetch]

end Agree

theorem applyWrites_foreign {repoId : UInt64} {writes : List (Bytes × Option Bytes)}
    (h : ∀ w ∈ writes, ¬ Foreign repoId w.1) (s : Store) (hkey : Foreign repoId key) :
    (Lock.applyWrites s writes)[key]? = s[key]? :=
  Lock.get_applyWrites_of_notMem s writes key fun w hw heq => h w hw (heq ▸ hkey)

theorem Agree.applyWrites {repoId : UInt64} {s t : Store} (h : Agree repoId s t)
    (writes : List (Bytes × Option Bytes)) :
    Agree repoId (Lock.applyWrites s writes) (Lock.applyWrites t writes) :=
  fun key hkey => by
    have hget : Lock.KeyStore.get s key = Lock.KeyStore.get t key := h key hkey
    exact Lock.get_applyWrites_congr hget writes

theorem ingestPack_local (content : ObjectId → ObjectContent) (repoId : UInt64)
    (oids : List ObjectId) : Local repoId fun s => (ingestPack content s repoId oids, ()) := by
  refine ⟨fun s key hkey => applyWrites_foreign (fun w hw => ?_) s hkey,
    fun _ _ _ => rfl, fun s t h => h.applyWrites _⟩
  obtain ⟨oid, -, hw⟩ := List.mem_flatMap.mp hw
  rcases key_of_mem_objectWrites content hw with hobj | hpar
  · exact hobj ▸ not_foreign_of_repo (k := .obj repoId oid) rfl
  · obtain ⟨pos, hpar⟩ := key_of_mem_parentWrites content hpar
    exact hpar ▸ not_foreign_of_repo (k := .par repoId oid pos) rfl

theorem updateRefs_local (mode : Lock.LockRead) (repoId : UInt64) (updates : List RefUpdate) :
    Local repoId fun s => updateRefs mode s repoId updates := by
  have hkeys : ∀ a ∈ updates.map (updateAccess repoId), ¬ Foreign repoId a.key := by
    intro a ha
    obtain ⟨u, -, rfl⟩ := List.mem_map.mp ha
    exact not_foreign_of_repo (k := .ref repoId u.refname) rfl
  have hbody : ∀ s t, Agree repoId s t → Lock.runBody mode s (updates.map (updateAccess repoId)) []
      = Lock.runBody mode t (updates.map (updateAccess repoId)) [] := fun s t h =>
    Lock.runBody_congr mode _ _ fun a ha => h a.key (hkeys a ha)
  refine ⟨fun s key hkey => ?_, fun s t h => ?_, fun s t h => ?_⟩
  · simp only [updateRefs, Lock.runAtomic]
    split
    · rename_i writes hwrites
      refine applyWrites_foreign (fun w hw => ?_) s hkey
      obtain ⟨a, ha, hw⟩ := (Lock.runBody_keys hwrites w hw).resolve_left List.not_mem_nil
      exact hw ▸ hkeys a ha
    · rfl
  · simp only [updateRefs, Lock.runAtomic, hbody s t h]
    split <;> rfl
  · simp only [updateRefs, Lock.runAtomic, hbody s t h]
    split
    · exact h.applyWrites _
    · exact h

theorem Local.map {repoId : UInt64} {op : Store → Store × α} (h : Local repoId op) (f : α → β) :
    Local repoId fun s => ((op s).1, f (op s).2) :=
  ⟨h.writes, fun s t hagree => congrArg f (h.answer s t hagree), h.own⟩

/-- **An operation on a repository keeps to its keys.** -/
theorem runOperation_local (content : ObjectId → ObjectContent) (codec : Codec)
    (mode : Lock.LockRead) (fuel : Nat) (dir : CacheDir) (repoId : UInt64) (op : Operation) :
    Local repoId (runOperation content codec mode fuel dir repoId op) := by
  cases op with
  | updateRefs updates =>
    exact (updateRefs_local mode repoId updates).map fun result =>
      some (dir, Reply.ofResult (fun _ => .done) result)
  | ingestPack oids => exact (ingestPack_local content repoId oids).map fun _ => some (dir, Reply.done)
  | listRefs => exact Local.of_read fun s t h => by rw [h.listRefs_eq]
  | resolveRef refname =>
    refine Local.of_read fun s t h => ?_
    have href : s[refkey repoId refname]? = t[refkey repoId refname]? := h.get (k := .ref repoId refname) rfl
    rw [Kv.resolveRef, href, Kv.resolveRef]
  | hasObject oid => exact Local.of_read fun s t h => by rw [Kv.hasObject, h.get_obj, Kv.hasObject]
  | hasObjects oids =>
    refine Local.of_read fun s t h => ?_
    have hsame : Kv.hasObject s repoId = Kv.hasObject t repoId := by
      funext oid
      rw [Kv.hasObject, h.get_obj, Kv.hasObject]
    rw [hsame]
  | readBlob oid cap => exact Local.of_read fun s t h => by rw [Kv.readBlob, h.readObjectWithKind_eq, Kv.readBlob]
  | readObjectRaw oid cap =>
    exact Local.of_read fun s t h => by rw [readObjectCapped, h.readObjectWithKind_eq, readObjectCapped]
  | readCommitInfo oid =>
    exact Local.of_read fun s t h => by
      rw [Kv.readCommitInfo, Kv.readObjectRaw, h.get_obj, Kv.readCommitInfo, Kv.readObjectRaw]
  | computePushKind oldOid newOid =>
    refine Local.of_read fun s t h => ?_
    rw [Kv.computePushKind, h.isAncestor_eq, Kv.computePushKind]
  | reachableExcluding tips excluding cap => exact Local.of_read fun s t h => by rw [h.reachableExcluding_eq]
  | buildPack request => exact Local.of_read fun s t h => by rw [Kv.buildPack, h.database_eq, Kv.buildPack]
  | treeDiff parentTree childTree =>
    refine Local.of_read fun s t h => ?_
    have hread : readTree s repoId = readTree t repoId := by
      funext oid
      rw [readTree, h.readObjectOfKind_eq, readTree]
    rw [hread]

/-- **The key layout keeps tables and repositories apart.** -/
theorem keys_apart (content : ObjectId → ObjectContent) (codec : Codec) (mode : Lock.LockRead) :
    Function.Injective Key.encode ∧
      (∀ repoId k, Between (refsPrefixStart repoId) (refsPrefixEnd repoId) (Key.encode k) ↔
        ∃ name, k = .ref repoId name) ∧
      (∀ repoId c k, Between (parentsPrefixStart repoId c) (parentsPrefixEnd repoId c) (Key.encode k) ↔
        ∃ pos, k = .par repoId c pos) ∧
      (∀ repoId c i j, compare (par repoId c i) (par repoId c j) = .lt ↔ i < j) ∧
      (∀ repoId name, refnameFromKey repoId (refkey repoId name) = some name) ∧
      ∀ repoId fuel dir op, Local repoId (runOperation content codec mode fuel dir repoId op) := by
  refine ⟨encode_injective, fun repoId k => between_refs_iff.trans refsPrefixStart_prefix_iff,
    fun repoId c k => between_parents_iff.trans parentsPrefixStart_prefix_iff, fun repoId c i j => ?_,
    refnameFromKey_refkey, fun repoId fuel dir op => runOperation_local content codec mode fuel dir repoId op⟩
  rw [compare_par, Nat.compare_eq_lt, UInt16.lt_iff_toNat_lt]

end Mizzle.Kv
