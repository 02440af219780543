import Mizzle.Backend.Kv.BuildPack
import Mizzle.Backend.Operation
import Mizzle.Backend.TreeDiff

/-!
# The operations of the KV backend

`mizzle/src/backend/kv/mod.rs` on an opened repository: the reads of `kv/refs.rs` and
`kv/objects.rs`, `build_pack` with its cache and `tree_diff` of `kv/build_pack.rs`, and all
operations as one function (`runOperation`).
-/

namespace Mizzle.Kv

open Lib Pack Storage

/-- `refname_from_key`. -/
def refnameFromKey (repoId : UInt64) (key : Bytes) : Option String :=
  if refsPrefixStart repoId <+: key then fromUtf8 (key.drop (refsPrefixStart repoId).length) else none

/-- A pair of the scan over the refs. -/
def decodeRefPair (repoId : UInt64) (pair : Bytes × Bytes) : Except String RefInfo :=
  match refnameFromKey repoId pair.1 with
  | none => .error "decoding ref name from key"
  | some name =>
    match ObjectId.tryFrom pair.2 with
    | some oid => .ok ⟨name, oid, none, none⟩
    | none => .error ("corrupt ref oid for " ++ name)

/-- `list_refs`; the limit of the scan is `u32::MAX`. -/
def listRefs (s : Store) (repoId : UInt64) : Except String RefsSnapshot := do
  let refs ← (scan s (refsPrefixStart repoId) (refsPrefixEnd repoId) (2 ^ 32 - 1)).mapM (decodeRefPair repoId)
  let headTarget := (s[repoMeta repoId repoMetaHead]?.bind fromUtf8).getD "refs/heads/main"
  return ⟨(refs.find? fun r => r.name = headTarget).map fun r => ⟨r.oid, some headTarget⟩, refs⟩

/-- `resolve_ref`. -/
def resolveRef (s : Store) (repoId : UInt64) (refname : String) : Except String (Option ObjectId) :=
  decodeRef refname s[refkey repoId refname]?

/-- `read_object_with_kind`. -/
def readObjectWithKind (s : Store) (repoId : UInt64) (oid : ObjectId) (cap : Nat) :
    Except String (Option (UInt8 × Bytes)) :=
  match s[obj repoId oid]? with
  | none => .ok none
  | some [] => .error "object value is empty"
  | some (kind :: data) => .ok (if cap < data.length then none else some (kind, data))

/-- `read_blob`. -/
def readBlob (s : Store) (repoId : UInt64) (oid : ObjectId) (cap : Nat) :
    Except String (Option Bytes) :=
  (readObjectWithKind s repoId oid cap).map fun found =>
    found.bind fun (kind, data) => if kind = kindByte .blob then some data else none

/-- `read_object_raw`, with its limit on the size. -/
def readObjectCapped (s : Store) (repoId : UInt64) (oid : ObjectId) (cap : Nat) :
    Except String (Option Bytes) :=
  (readObjectWithKind s repoId oid cap).map fun found => found.map Prod.snd

/-- `read_commit_info`; the limit is `u64::MAX`. The kind of the object is not looked at. -/
def readCommitInfo (parseCommitInfo : Bytes → ObjectId → Except String CommitInfo) (s : Store)
    (repoId : UInt64) (oid : ObjectId) : Except String CommitInfo := do
  match ← readObjectRaw s repoId oid with
  | some raw => parseCommitInfo raw oid
  | none => .error ("commit " ++ oid.toHexString ++ " not in object store")

/-- The read of `fetch_trees_recursive`. -/
def readTree (s : Store) (repoId : UInt64) (oid : ObjectId) : Except String Bytes :=
  match readObjectOfKind s repoId oid (kindByte .tree) with
  | some data => .ok data
  | none => .error ("tree " ++ oid.toHexString ++ " not found")

/-- `build_pack`. The options are a part of the key only. -/
def buildPack (codec : Codec) (fuel : Nat) (dir : CacheDir) (s : Store) (repoId : UInt64)
    (request : Pack.Request) : Option (CacheDir × Except String (Finset PackedObject)) :=
  dir.buildPack repoId (cacheKey codec.sha256 repoId request)
    ((database codec.parser fuel s repoId).packObjects request.wants request.haves)

/-- An operation: the store afterwards, and the cache with the reply. -/
def runOperation (content : ObjectId → ObjectContent) (codec : Codec) (mode : Lock.LockRead)
    (fuel : Nat) (dir : CacheDir) (repoId : UInt64) (op : Operation) (s : Store) :
    Store × Option (CacheDir × Reply) :=
  match op with
  | .listRefs => (s, some (dir, .ofResult .refs (listRefs s repoId)))
  | .resolveRef refname => (s, some (dir, .ofResult .ref (resolveRef s repoId refname)))
  | .updateRefs updates =>
    let (after, result) := updateRefs mode s repoId updates
    (after, some (dir, .ofResult (fun _ => .done) result))
  | .hasObject oid => (s, some (dir, .found [hasObject s repoId oid]))
  | .hasObjects oids => (s, some (dir, .found (oids.map (hasObject s repoId))))
  | .readBlob oid cap => (s, some (dir, .ofResult .data (readBlob s repoId oid cap)))
  | .readObjectRaw oid cap => (s, some (dir, .ofResult .data (readObjectCapped s repoId oid cap)))
  | .readCommitInfo oid => (s, some (dir, .ofResult .commit (readCommitInfo codec.parseCommitInfo s repoId oid)))
  | .ingestPack oids => (ingestPack content s repoId oids, some (dir, .done))
  | .computePushKind oldOid newOid => (s, some (dir, .kind (computePushKind s repoId oldOid newOid)))
  | .reachableExcluding tips excluding cap =>
    (s, Option.map (fun result => (dir, .commits result)) (reachableExcluding fuel s repoId tips excluding cap))
  | .buildPack request =>
    (s, (buildPack codec fuel dir s repoId request).map fun (dir, result) => (dir, .ofResult .pack result))
  | .treeDiff parentTree childTree =>
    (s, Option.map (fun result => (dir, .ofResult .diff result))
      (treeDiff codec.parser (readTree s repoId) codec.treeDiff fuel parentTree childTree))

end Mizzle.Kv
