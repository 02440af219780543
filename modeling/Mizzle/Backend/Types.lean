import Mizzle.Proto.Types

/-!
# What the storage trait exchanges with its callers

The records of `mizzle/src/backend/mod.rs` and `mizzle/src/auth_types.rs` that the push pipeline
reads: commit metadata, the metadata of an ingested pack, path diffs, ref snapshots, and the errors
of the bounded walks.
-/

namespace Mizzle

open Lib

structure Identity where
  name : Bytes
  email : Bytes
  time : Bytes
deriving DecidableEq

inductive SignatureFormat where
  | openPgp
  | ssh
  | x509Cms
  | unknown
deriving DecidableEq

structure SignatureBlob where
  format : SignatureFormat
  bytes : Bytes
deriving DecidableEq

structure CommitInfo where
  oid : ObjectId
  tree : ObjectId
  parents : List ObjectId
  author : Identity
  committer : Identity
  message : Bytes
  encoding : Option Bytes
  signature : Option SignatureBlob
deriving DecidableEq

/-- The kind of a pack object; the metadata of tags is read by no modelled function. -/
inductive ObjectKind where
  | blob
  | tree
  | commit (info : CommitInfo)
  | tag
deriving DecidableEq

inductive ObjectType where
  | blob
  | tree
  | commit
  | tag
deriving DecidableEq

/-- What `extract_pack` recovers of an object of a pack. Objects are content-addressed: the oid
determines the rest. Only commits have parents. -/
structure ObjectContent where
  kind : ObjectType
  data : Bytes
  parents : List ObjectId

structure PackObject where
  oid : ObjectId
  kind : ObjectKind
  size : Nat
deriving DecidableEq

structure PackMetadata where
  objects : List PackObject
deriving DecidableEq

namespace PackMetadata

def commits (pack : PackMetadata) : List CommitInfo :=
  pack.objects.filterMap fun o =>
    match o.kind with
    | .commit c => some c
    | _ => none

/-- `find_commit`. -/
def findCommit (pack : PackMetadata) (oid : ObjectId) : Option CommitInfo :=
  pack.commits.find? fun c => c.oid == oid

theorem findCommit_oid {pack : PackMetadata} {oid : ObjectId} {c : CommitInfo}
    (h : pack.findCommit oid = some c) : c.oid = oid := by simpa using List.find?_some h

end PackMetadata

inductive RefDiffChange where
  | added
  | modified
  | removed
deriving DecidableEq

structure RefDiffEntry where
  path : Bytes
  change : RefDiffChange
  mode : UInt32
  oid : ObjectId
deriving DecidableEq

structure RefDiff where
  entries : List RefDiffEntry
deriving DecidableEq

structure RefInfo where
  name : String
  oid : ObjectId
  peeled : Option ObjectId
  symrefTarget : Option String
deriving DecidableEq

structure HeadInfo where
  oid : ObjectId
  symrefTarget : Option String
deriving DecidableEq

structure RefsSnapshot where
  head : Option HeadInfo
  refs : List RefInfo
deriving DecidableEq

/-- The errors of `reachable_excluding`. -/
inductive ReachableError where
  | capExceeded (limit : Nat)
  | other (message : String)
deriving DecidableEq

/-- The `Display` text. -/
def ReachableError.message : ReachableError → String
  | .capExceeded limit => "reachability walk exceeded cap of " ++ toString limit ++ " commits"
  | .other e => e

end Mizzle
