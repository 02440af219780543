import Mizzle.Backend.Types
import Mizzle.Lib.ByteOrder
import Mizzle.Lib.Service
import Mizzle.Pack.Database
import Mizzle.Pack.Fetch

/-!
# The operations of the storage trait

The operations of `StorageBackend` (`mizzle/src/backend/mod.rs`) on an opened repository, with their
replies, and the pack cache that the backends with databases share
(`mizzle/src/backend/pack_cache.rs`). Two operations of the trait are not here: `inspect_ingested`
reads the handle that `ingest_pack` returned, and `rollback_ingest` does nothing in a database.

A file of the cache is there completely or not at all. Whether it can be opened or written is up to
the file system, which is part of the state (`CacheIo`).
-/

namespace Mizzle.Pack

open Lib

/-- What `build_pack` is asked for. -/
structure Request where
  wants : List ObjectId
  haves : List ObjectId
  opts : PackOptions

/-! ### The pack cache -/

def filterTag : Option Filter → UInt8
  | none => 0
  | some .blobNone => 1
  | some .treeNone => 2

def sortOids (oids : List ObjectId) : List ObjectId :=
  oids.mergeSort fun a b => (compare a.bytes b.bytes).isLE

/-- The bytes that are hashed. -/
def keyInput (repoId : UInt64) (r : Request) : Bytes :=
  littleEndian 8 repoId.toNat ++ (sortOids r.wants).flatMap ObjectId.bytes ++ [0x00]
    ++ (sortOids r.haves).flatMap ObjectId.bytes ++ [0x01] ++ littleEndian 4 (r.opts.deepen.getD 0).toNat
    ++ [filterTag r.opts.filter] ++ [if r.opts.thinPack then 1 else 0]

/-- `pack_cache::key`. -/
def cacheKey (sha256 : Bytes → Bytes) (repoId : UInt64) (r : Request) : Bytes :=
  hexEncode (sha256 (keyInput repoId r))

/-- What the file system does in one call: whether a cached file can be opened, and a new one
written. -/
structure CacheIo where
  opens : Bool
  writes : Bool

/-- The directory of the cache, with the files `{repo_id}/{key}.pack`, and what the file system does
in the coming calls. -/
structure CacheDir where
  files : UInt64 → Bytes → Option (Finset PackedObject)
  io : Stream' CacheIo

namespace CacheDir

def empty (io : Stream' CacheIo) : CacheDir := ⟨fun _ _ => none, io⟩

variable (dir : CacheDir) (repoId : UInt64) (key : Bytes)

/-- `pack_cache::try_hit`. -/
def tryHit : Option (Finset PackedObject) :=
  if dir.io.head.opens then dir.files repoId key else none

/-- The files after `pack_cache::write`. -/
def write (pack : Finset PackedObject) : UInt64 → Bytes → Option (Finset PackedObject) :=
  if dir.io.head.writes then Function.update dir.files repoId (Function.update (dir.files repoId) key (some pack))
  else dir.files

/-- A pack from the cache, or a new one, which is written to the cache. -/
def buildPack (build : Outcome String (Finset PackedObject)) :
    Option (CacheDir × Except String (Finset PackedObject)) :=
  match dir.tryHit repoId key with
  | some pack => some ({ dir with io := dir.io.tail }, .ok pack)
  | none => Option.map (fun result =>
      match result with
      | .ok pack => (⟨dir.write repoId key pack, dir.io.tail⟩, .ok pack)
      | .error e => ({ dir with io := dir.io.tail }, .error e)) build

variable {dir repoId key}

theorem write_of_ne {id : UInt64} (hne : id ≠ repoId) (pack : Finset PackedObject) :
    dir.write repoId key pack id = dir.files id := by
  rw [write]
  split
  · exact Function.update_of_ne hne ..
  · rfl

theorem write_eq_some {pack cached : Finset PackedObject} {name : Bytes}
    (h : dir.write repoId key pack repoId name = some cached) :
    dir.files repoId name = some cached ∨ name = key ∧ pack = cached := by
  rw [write] at h
  split at h
  · rw [Function.update_self, Function.update_apply] at h
    split at h
    · rename_i hname
      exact Or.inr ⟨hname, Option.some.inj h⟩
    · exact Or.inl h
  · exact Or.inl h

end CacheDir

end Mizzle.Pack

namespace Mizzle.Storage

open Lib Pack

/-- What the databases call to read, compare and hash. -/
structure Codec where
  parser : Parser
  /-- `parse_commit_info`. -/
  parseCommitInfo : Bytes → ObjectId → Except String CommitInfo
  /-- `gix_diff::tree` on the trees that are found, with the recorded changes as entries. -/
  treeDiff : (ObjectId → Option Bytes) → ObjectId → ObjectId → Except String RefDiff
  sha256 : Bytes → Bytes

/-- The operations. A pack that is ingested is given by the oids of its objects. -/
inductive Operation where
  | listRefs
  | resolveRef (refname : String)
  | updateRefs (updates : List RefUpdate)
  | hasObject (oid : ObjectId)
  | hasObjects (oids : List ObjectId)
  | readBlob (oid : ObjectId) (cap : Nat)
  | readObjectRaw (oid : ObjectId) (cap : Nat)
  | readCommitInfo (oid : ObjectId)
  | ingestPack (oids : List ObjectId)
  | computePushKind (oldOid newOid : ObjectId)
  | reachableExcluding (tips excluding : List ObjectId) (cap : Option Nat)
  | buildPack (request : Pack.Request)
  | treeDiff (parentTree : Option ObjectId) (childTree : ObjectId)

/-- What the callers ask of a backend: an operation comes after `open`. -/
inductive Request where
  | initRepo (path : String)
  | on (path : String) (op : Operation)

inductive Reply where
  | done
  | error (message : String)
  | refs (snapshot : RefsSnapshot)
  | ref (oid : Option ObjectId)
  | found (found : List Bool)
  | data (data : Option Bytes)
  | commit (info : CommitInfo)
  | kind (kind : PushKind)
  | commits (result : Except ReachableError (List ObjectId))
  | pack (objects : Finset PackedObject)
  | diff (diff : RefDiff)

def Reply.ofResult {α : Type} (reply : α → Reply) : Except String α → Reply
  | .ok a => reply a
  | .error message => .error message

/-- Replies that differ in the order of refs, or in the text of an error. -/
inductive Reply.Alike : Reply → Reply → Prop
  | error (message message' : String) : Alike (.error message) (.error message')
  | refs {snapshot snapshot' : RefsSnapshot} (head : snapshot.head = snapshot'.head)
      (refs : snapshot.refs.Perm snapshot'.refs) : Alike (.refs snapshot) (.refs snapshot')
  | same (reply : Reply) : Alike reply reply

/-! ### A database as a service -/

/-- What a backend stores, and its cache of packs. -/
structure Backend (σ : Type) where
  store : σ
  dir : CacheDir

/-- A request either creates a repository, or opens one and runs one operation on it. -/
def serveWith {σ ρ : Type} (initRepo : σ → String → σ × Reply)
    (openRepo : σ → String → Except String ρ)
    (run : Nat → CacheDir → ρ → Operation → σ → σ × Option (CacheDir × Reply)) :
    Service (Backend σ) Request Reply := fun fuel s request =>
  match request with
  | .initRepo path => some (⟨(initRepo s.store path).1, s.dir⟩, (initRepo s.store path).2)
  | .on path op =>
    match openRepo s.store path with
    | .ok repo =>
      let (store, answer) := run fuel s.dir repo op s.store
      answer.map fun (dir, reply) => (⟨store, dir⟩, reply)
    | .error message => some (s, .error message)

end Mizzle.Storage
