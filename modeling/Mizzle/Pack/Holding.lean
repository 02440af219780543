import Mizzle.Backend.Kv.BuildPack
import Mizzle.Backend.Kv.ParentKeys
import Mizzle.Backend.Sql.BuildPack
import Mizzle.Backend.Sql.ParentRows
import Mizzle.Pack.Fetch

/-!
# A store in each backend

Every closed store can be held by each of the three backends: as an object database whose walks are
those of gitoxide, and in the tables or keys that an ingest of all its objects leaves (`stores_odb`,
`Sql.stores_ingestPack`, `Kv.stores_ingestPack`). The data of an object other than a blob is its
oid, which `parser` looks up again; what is proved about the builders needs no more of the format of
objects than that it can be read back.
-/

namespace Mizzle.Pack

open Lib

namespace Objects

/-- The store of a list of objects; the first object counts if an oid is listed twice. -/
def ofList (entries : List (ObjectId × GitObject)) : Objects where
  find oid := entries.lookup oid
  oids := (entries.map Prod.fst).toFinset
  mem_oids oid obj h := by
    obtain ⟨before, after, rfl, -⟩ := List.lookup_eq_some_iff.mp h
    simp

theorem mem_keys_ofList {entries : List (ObjectId × GitObject)} {x : ObjectId} :
    x ∈ entries.map Prod.fst ↔ (ofList entries).find x ≠ none := by
  rw [ofList, Ne, List.lookup_eq_none_iff]
  simp

def data (oid : ObjectId) : GitObject → Bytes
  | .blob content => content
  | _ => oid.bytes

/-- The parser that looks up what is stored under an oid. -/
def parser (o : Objects) : Parser where
  commitTree data := (ObjectId.tryFrom data).bind o.treeOf
  treeId data :=
    match (ObjectId.tryFrom data).bind o.treeOf with
    | some tree => .ok tree
    | none => .error "not a commit"
  parentIds data := ((ObjectId.tryFrom data).map o.parents).getD []
  treeEntries data :=
    match (ObjectId.tryFrom data).bind o.find with
    | some (.tree es) => .ok es
    | _ => .error "not a tree"

/-- What a pack with objects of the store holds. -/
def content (o : Objects) (oid : ObjectId) : ObjectContent :=
  match o.find oid with
  | some obj => ⟨obj.kind, data oid obj, obj.parents⟩
  | none => ⟨.blob, [], []⟩

/-- The object database of the store, with the walk in two passes as the commit walk. -/
def odb (o : Objects) : Odb where
  tryFind oid := .ok ((o.find oid).map fun obj => (obj.kind, data oid obj))
  findTreeIter oid :=
    match o.find oid with
    | some (.tree es) => .ok es
    | _ => .error "not a tree"
  hide _ _ := .ok ()
  simple tips hidden :=
    (walkExcluding (fun c => .ok (o.parents c)) (fun c => .ok (o.parents c)) never never o.oids.card tips hidden).getD
      (.error "no fuel")

variable {o : Objects}

/-! ### Checking a store -/

instance (oid : ObjectId) : Decidable (o.IsCommit oid) :=
  match h : o.find oid with
  | some (.commit t ps) => .isTrue ⟨t, ps, h⟩
  | some (.tree _) | some (.blob _) | some (.tag _) | none => .isFalse fun ⟨t, ps, hc⟩ => by simp [h] at hc

/-- What one entry of a tree names is of the kind it says. -/
def EntryClosed (o : Objects) (e : TreeEntry) : Prop :=
  match e.mode with
  | .tree => o.IsTree e.oid
  | .blob => (o.find e.oid).map GitObject.kind = some .blob
  | .gitlink => o.find e.oid = none ∨ o.IsCommit e.oid

instance (e : TreeEntry) : Decidable (o.EntryClosed e) := by
  unfold EntryClosed
  split <;> infer_instance

/-- What one object names is stored, and of the kind it says. -/
def ClosedAt (o : Objects) (oid : ObjectId) : Prop :=
  match o.find oid with
  | some (.commit root ps) => o.IsTree root ∧ ∀ q ∈ ps, o.IsCommit q
  | some (.tree es) => ∀ e ∈ es, o.EntryClosed e
  | some (.tag target) => o.find target ≠ none
  | some (.blob _) | none => True

instance (oid : ObjectId) : Decidable (o.ClosedAt oid) := by
  unfold ClosedAt
  split <;> infer_instance

theorem closed_of_closedAt (h : ∀ oid ∈ o.oids, o.ClosedAt oid) : o.Closed := by
  have hat : ∀ {oid obj}, o.find oid = some obj → o.ClosedAt oid := fun hfind => h _ (o.mem_oids _ _ hfind)
  have hentry : ∀ {t es}, o.find t = some (.tree es) → ∀ e ∈ es, o.EntryClosed e := by
    intro t es hfind
    have htree := hat hfind
    rwa [ClosedAt, hfind] at htree
  constructor
  · intro c t ps hfind
    have hcommit := hat hfind
    rw [ClosedAt, hfind] at hcommit
    exact hcommit.1
  · intro c t ps hfind
    have hcommit := hat hfind
    rw [ClosedAt, hfind] at hcommit
    exact hcommit.2
  · intro t es hfind e he hmode
    have hclosed := hentry hfind e he
    rwa [EntryClosed, hmode] at hclosed
  · intro t es hfind e he hmode
    have hclosed := hentry hfind e he
    rw [EntryClosed, hmode] at hclosed
    obtain ⟨obj, hobj, hkind⟩ := Option.map_eq_some_iff.mp hclosed
    cases obj with
    | blob content => exact ⟨content, hobj⟩
    | _ => simp [GitObject.kind] at hkind
  · intro t es hfind e he hmode
    have hclosed := hentry hfind e he
    rwa [EntryClosed, hmode] at hclosed
  · intro g x hfind
    have htag := hat hfind
    rwa [ClosedAt, hfind] at htag

theorem acyclic_of_rank (rank : ObjectId → Nat)
    (h : ∀ c ∈ o.oids, ∀ q ∈ o.parents c, rank q < rank c) : Acyclic o.parents := by
  refine Lib.acyclic_of_rank rank fun c q hq => ?_
  obtain ⟨t, ps, hfind, -⟩ := find_of_mem_parents hq
  exact h c (o.mem_oids c _ hfind) q hq

theorem length_parents_le {n : Nat} (h : ∀ c ∈ o.oids, (o.parents c).length ≤ n) (c : ObjectId) :
    (o.parents c).length ≤ n := by
  cases hfind : o.find c with
  | none => simp [parents, hfind]
  | some obj => exact h c (o.mem_oids c _ hfind)

theorem noGitlinks_of_forall
    (h : ∀ t ∈ o.oids, ∀ e ∈ ((o.find t).map GitObject.entries).getD [], e.mode ≠ .gitlink) :
    o.NoGitlinks := by
  intro t es hfind e he
  refine h t (o.mem_oids t _ hfind) e ?_
  simpa [hfind, GitObject.entries] using he

theorem mem_of_reach {tips seen : List ObjectId} (htips : ∀ t ∈ tips, t ∈ seen)
    (hseen : ∀ x ∈ seen, ∀ y ∈ o.refs x, y ∈ seen) {x : ObjectId} (h : Reach o.refs tips x) :
    x ∈ seen := by
  obtain ⟨t, ht, hpath⟩ := h
  induction hpath with
  | refl => exact htips t ht
  | tail _ hedge ih => exact hseen _ ih _ hedge

/-! ### The store in gitoxide -/

theorem reads_data {oid : ObjectId} {obj : GitObject} (h : o.find oid = some obj) :
    o.parser.Reads obj obj.kind (data oid obj) := by
  cases obj <;> simp [Parser.Reads, GitObject.kind, data, parser, treeOf, parents, h, GitObject.parents]

theorem content_of_find {oid : ObjectId} {obj : GitObject} (h : o.find oid = some obj) :
    o.content oid = ⟨obj.kind, data oid obj, obj.parents⟩ := by
  rw [content, h]

theorem parents_content (oid : ObjectId) : (o.content oid).parents = o.parents oid := by
  rw [content, parents]
  cases o.find oid <;> rfl

/-- **The object database holds the store.** -/
theorem stores_odb (h : o.Closed) : o.odb.Stores o.parser o where
  found hfind := ⟨_, _, by simp [odb, hfind], reads_data hfind⟩
  absent hfind := by simp [odb, hfind]
  tree hfind := by simp [odb, hfind]
  notTree hnot := by
    refine ⟨"not a tree", ?_⟩
    simp only [odb]
    split
    · rename_i es hes
      exact absurd ⟨es, hes⟩ hnot
    · rfl
  hide _ _ := rfl
  simple {tips hidden} htips hhidden := by
    have hmem : ∀ c, o.IsCommit c → c ∈ o.oids := by
      rintro c ⟨t, ps, hfind⟩
      exact o.mem_oids c _ hfind
    have hlookup : ∀ c, ∃ ps, (Except.ok (o.parents c) : Except String _) = .ok ps ∧ ∀ q, q ∈ ps ↔ q ∈ o.parents c :=
      fun c => ⟨_, rfl, fun _ => Iff.rfl⟩
    obtain ⟨ids, hwalk, hnodup, hids⟩ := walkExcluding_done hlookup hlookup
      (fun c q hq => (h.parents_mem_oids c q hq).2) le_rfl
        (fun c hc => hmem c (htips c hc)) fun c hc => hmem c (hhidden c hc)
    exact ⟨ids, by simp only [odb]; rw [hwalk]; rfl, hnodup, hids⟩

end Objects

end Mizzle.Pack

namespace Mizzle.Sql

open Lib Pack

/-- Tables without rows. -/
def emptyTables : Db := ⟨Table.empty, Table.empty, Table.empty⟩

/-- **The tables hold the store** once all its objects have been ingested. -/
theorem stores_ingestPack {o : Objects} {oids : List ObjectId}
    (hoids : ∀ x, x ∈ oids ↔ o.find x ≠ none) (hfew : ∀ c, (o.parents c).length ≤ 2 ^ 32)
    (repo : Int) : Stores o.parser o (ingestPack o.content emptyTables repo oids) repo := by
  have hempty : ∀ oid : ObjectId, (emptyTables.objects.lookup (repo, oid.bytes)) = none := fun _ => rfl
  refine ⟨fun {oid obj} hfind => ?_, fun {oid} hfind => ?_, fun c b => ?_⟩
  · refine ⟨objectRow o.content repo oid, obj.kind, ?_, ?_, ?_⟩
    · rw [lookup_ingestPack, hempty, Option.none_or, if_pos ((hoids oid).mpr (by simp [hfind]))]
    · rw [objectRow, Objects.content_of_find hfind]
    · rw [objectRow, Objects.content_of_find hfind]
      exact Objects.reads_data hfind
  · rw [lookup_ingestPack, hempty, Option.none_or, if_neg fun hmem => (hoids oid).mp hmem hfind]
  · have hnone : b ∉ parentOids emptyTables repo c.bytes := by simp [parentOids, emptyTables, Table.empty]
    rw [mem_parentOids_ingestPack_iff (fun c => (Objects.parents_content c).symm ▸ hfew c)
      (fun row hrow => absurd hrow List.not_mem_nil), Objects.parents_content, or_iff_right hnone,
        and_iff_right_iff_imp]
    rintro ⟨q, hq, -⟩
    obtain ⟨t, ps, hfind, -⟩ := Objects.find_of_mem_parents hq
    exact (hoids c).mpr (by simp [hfind])

end Mizzle.Sql

namespace Mizzle.Kv

open Lib Pack

/-- **The keys hold the store** once all its objects have been ingested. -/
theorem stores_ingestPack {o : Objects} {oids : List ObjectId}
    (hoids : ∀ x, x ∈ oids ↔ o.find x ≠ none) (hfew : ∀ c, (o.parents c).length ≤ 65536)
    (repo : UInt64) : Stores o.parser o (ingestPack o.content ∅ repo oids) repo := by
  refine ⟨fun {oid obj'} hfind => ?_, fun {oid} hfind => ?_, fun c => ?_⟩
  · refine ⟨obj'.kind, Objects.data oid obj', ?_, Objects.reads_data hfind⟩
    rw [get_obj_ingestPack, if_pos ((hoids oid).mpr (by simp [hfind])), Objects.content_of_find hfind]
  · rw [get_obj_ingestPack, if_neg fun hmem => (hoids oid).mp hmem hfind]
    simp
  · by_cases hc : c ∈ oids
    · refine ⟨o.parents c, ?_, fun _ => Iff.rfl⟩
      rw [fetchParents_ingestPack o.content (stored_empty _) repo hc ((Objects.parents_content c).symm ▸ hfew c),
        Objects.parents_content]
    · have hnone : o.find c = none := not_not.mp fun hfind => hc ((hoids c).mpr hfind)
      exact ⟨[], fetchParents_ingestPack_of_notMem o.content repo hc, fun q => by simp [Objects.parents, hnone]⟩

end Mizzle.Kv
