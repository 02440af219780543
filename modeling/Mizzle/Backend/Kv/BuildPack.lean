import Mizzle.Backend.Kv.Objects
import Mizzle.Backend.Kv.Reachable
import Mizzle.Pack.Database

/-!
# Pack assembly of the KV backend

What `mizzle/src/backend/kv/build_pack.rs` asks of the store on a cache miss: `read_commit_tree`
reads an object of any kind, `collect_tree_oids` is a loop over a stack, and an object is fetched
with its kind byte. An empty value is an error for `read_commit_tree` and passed over by the other
two.
-/

namespace Mizzle.Kv

open Lib Pack

variable (p : Parser)

/-- `read_object_raw`, without a limit on the size: the data behind the kind byte
(`decode_object`). -/
def readObjectRaw (s : Store) (repoId : UInt64) (oid : ObjectId) : Except String (Option Bytes) :=
  match s[obj repoId oid]? with
  | none => .ok none
  | some [] => .error "object value is empty"
  | some (_ :: data) => .ok (some data)

/-- `read_commit_tree`. -/
def readCommitTree (s : Store) (repoId : UInt64) (commitOid : ObjectId) :
    Except String (Option ObjectId) :=
  (readObjectRaw s repoId commitOid).map fun data => data.bind p.commitTree

/-- `read_object_of_kind`. -/
def readObjectOfKind (s : Store) (repoId : UInt64) (oid : ObjectId) (expectedKind : UInt8) :
    Option Bytes :=
  match s[obj repoId oid]? with
  | some (kind :: data) => if kind = expectedKind then some data else none
  | _ => none

/-- The entries of a tree, as the loop of `collect_tree_oids` looks at them. -/
def treeItems (s : Store) (repoId : UInt64) (treeOid : ObjectId) :
    Except String (List (Item ObjectId)) :=
  match readObjectOfKind s repoId treeOid (kindByte .tree) with
  | none => .ok []
  | some data =>
    match p.treeEntries data with
    | .ok entries => .ok (entries.map TreeEntry.item)
    | .error _ => .error ("parsing tree " ++ treeOid.toHexString)

/-- `collect_tree_oids`. -/
def collectTreeOids (fuel : Nat) (s : Store) (repoId : UInt64) (set : Finset ObjectId)
    (treeOid : ObjectId) : Outcome String (Finset ObjectId) :=
  Outcome.walk (treeItems p s repoId) ∅ lifo fuel [.node treeOid] set

def kindOfByte (kind : UInt8) : Option ObjectType :=
  if kind = 0 then some .blob
  else if kind = 1 then some .tree
  else if kind = 2 then some .commit
  else if kind = 3 then some .tag
  else none

/-- `read_object_with_gix_kind`. -/
def readObjectWithGixKind (s : Store) (repoId : UInt64) (oid : ObjectId) :
    Option (ObjectType × Bytes) :=
  match s[obj repoId oid]? with
  | some (kind :: data) => (kindOfByte kind).map fun kind => (kind, data)
  | _ => none

/-- The store as `build_pack` uses it. -/
def database (fuel : Nat) (s : Store) (repoId : UInt64) : Database where
  reachableExcluding wants haves := reachableExcluding fuel s repoId wants haves none
  commitTree := readCommitTree p s repoId
  collectTreeOids := collectTreeOids p fuel s repoId
  fetch := readObjectWithGixKind s repoId

/-- The keys hold the store. -/
structure Stores (o : Objects) (s : Store) (repoId : UInt64) : Prop where
  found : ∀ {oid obj'}, o.find oid = some obj' →
    ∃ kind data, s[obj repoId oid]? = some (encodeObject kind data) ∧ p.Reads obj' kind data
  absent : ∀ {oid}, o.find oid = none → s[obj repoId oid]? = none
  parents : ParentsAre s repoId o.parents

variable {p} {o : Objects} {s : Store} {repo : UInt64}

theorem kindOfByte_kindByte (kind : ObjectType) : kindOfByte (kindByte kind) = some kind := by
  cases kind <;> rfl

theorem kindByte_inj {kind kind' : ObjectType} : kindByte kind = kindByte kind' ↔ kind = kind' := by
  cases kind <;> cases kind' <;> decide

namespace Stores

theorem readCommitTree_eq (h : Stores p o s repo) (c : ObjectId) :
    readCommitTree p s repo c = .ok (o.rootOf p c) := by
  rw [readCommitTree, readObjectRaw, Objects.rootOf]
  cases hc : o.find c with
  | none =>
    rw [h.absent hc]
    rfl
  | some obj =>
    obtain ⟨kind, data, hvalue, hreads⟩ := h.found hc
    rw [hvalue]
    exact congrArg _ hreads.commitTree_eq

theorem treeItems_eq (h : Stores p o s repo) (t : ObjectId) :
    treeItems p s repo t = .ok (o.items t) := by
  rw [treeItems, readObjectOfKind]
  cases ht : o.find t with
  | none => simp [h.absent ht, Objects.items, ht]
  | some obj =>
    obtain ⟨kind, data, hvalue, hreads⟩ := h.found ht
    have hobj := hreads.kind_eq
    rw [hvalue, encodeObject]
    simp only [kindByte_inj, hobj]
    cases obj with
    | tree es =>
      obtain ⟨-, -, hentries⟩ := hreads
      simp [GitObject.kind, hentries, Objects.items, ht, GitObject.entries]
    | _ => simp [GitObject.kind, Objects.items, ht, GitObject.entries]

theorem fetch_iff (h : Stores p o s repo) (x : ObjectId) :
    (readObjectWithGixKind s repo x).isSome ↔ o.find x ≠ none := by
  rw [readObjectWithGixKind]
  cases hx : o.find x with
  | none => simp [h.absent hx]
  | some obj =>
    obtain ⟨kind, data, hvalue, -⟩ := h.found hx
    simp [hvalue, encodeObject, kindOfByte_kindByte]

/-- **The keys serve the store**, for every request. -/
theorem serves (h : Stores p o s repo) (hclosed : o.Closed) (wants haves : List ObjectId) :
    ∃ enough, ∀ fuel, enough ≤ fuel → (database p fuel s repo).Serves p o wants haves := by
  have hfinite : ∀ c q, q ∈ o.parents c → q ∈ o.oids := fun c q hq => (hclosed.parents_mem_oids c q hq).2
  obtain ⟨wantEnough, hwants⟩ := h.parents.reachableExcluding_done hfinite wants haves
  obtain ⟨haveEnough, hhaves⟩ := h.parents.reachableExcluding_done hfinite haves []
  refine ⟨max (max wantEnough haveEnough) (o.oids.card + 2), fun fuel hfuel => ?_⟩
  refine ⟨hwants fuel (by omega), ?_, h.readCommitTree_eq,
    fun t marks => Database.walk_rootItem hclosed h.treeItems_eq (by omega) t marks, h.fetch_iff⟩
  obtain ⟨oids, hwalk, hmem⟩ := hhaves fuel (by omega)
  exact ⟨oids, hwalk, fun c => by simp [hmem]⟩

end Stores

end Mizzle.Kv
