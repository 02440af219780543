import Mizzle.Lib.Bytes

/-!
# Object ids, push kinds, ref updates

The plain values that the protocol layer and every storage backend exchange: `gix_hash::ObjectId`
(SHA-1 only, as everywhere in the server), `PushKind` (`mizzle-proto/src/types.rs`), `RefUpdate`
(`mizzle-proto/src/receive.rs`) and `PushRef` (`mizzle/src/auth_types.rs`).
-/

namespace Mizzle

open Lib

/-- A SHA-1 object id: twenty bytes. -/
structure ObjectId where
  bytes : Bytes
  length_eq : bytes.length = 20
deriving DecidableEq

variable {oid : ObjectId} {old new : ObjectId}

namespace ObjectId

/-- The id whose twenty bytes are all `b`. -/
def fill (b : UInt8) : ObjectId := ⟨List.replicate 20 b, by simp⟩

/-- `ObjectId::null(Kind::Sha1)`. -/
def null : ObjectId := fill 0

def isNull (oid : ObjectId) : Bool := oid == null

/-- `ObjectId::empty_tree(Kind::Sha1)`. -/
def emptyTree : ObjectId :=
  ⟨[0x4b, 0x82, 0x5d, 0xc6, 0x42, 0xcb, 0x6e, 0xb9, 0xa0, 0x60,
    0xe5, 0x4b, 0xf8, 0xd6, 0x92, 0x88, 0xfb, 0xee, 0x49, 0x04], by decide⟩

instance : Inhabited ObjectId := ⟨null⟩

@[ext] theorem ext_bytes {a b : ObjectId} (h : a.bytes = b.bytes) : a = b := by
  cases a
  cases b
  simp_all

@[simp] theorem isNull_iff {oid : ObjectId} : oid.isNull = true ↔ oid = null := by simp [isNull]

@[simp] theorem isNull_eq_false_iff {oid : ObjectId} : oid.isNull = false ↔ oid ≠ null := by
  simp [isNull]

/-- `ObjectId::try_from(&[u8])`: exactly twenty bytes. -/
def tryFrom (bs : Bytes) : Option ObjectId := if h : bs.length = 20 then some ⟨bs, h⟩ else none

@[simp] theorem tryFrom_bytes (oid : ObjectId) : tryFrom oid.bytes = some oid :=
  dif_pos oid.length_eq

theorem bytes_of_tryFrom {bs : Bytes} (h : tryFrom bs = some oid) : oid.bytes = bs := by
  rw [tryFrom] at h
  split at h
  · rw [← Option.some.inj h]
  · cases h

/-- `to_hex`: forty lower-case digits. -/
def toHex (oid : ObjectId) : Bytes := hexEncode oid.bytes

/-- `ObjectId::from_hex`: forty digits of either case. -/
def fromHex (bs : Bytes) : Option ObjectId := (hexDecode bs).bind tryFrom

/-- The `Display` form. -/
def toHexString (oid : ObjectId) : String :=
  String.ofList (oid.toHex.map fun b => Char.ofNat b.toNat)

@[simp] theorem fromHex_toHex (oid : ObjectId) : fromHex oid.toHex = some oid := by
  simp [fromHex, toHex]

theorem length_of_fromHex {bs : Bytes} (h : fromHex bs = some oid) : bs.length = 40 := by
  obtain ⟨out, hout, htry⟩ := Option.bind_eq_some_iff.mp h
  unfold tryFrom at htry
  split at htry
  · rename_i hlength
    rw [length_of_hexDecode hout, hlength]
  · simp at htry

theorem mem_toHex {x : UInt8} (h : x ∈ oid.toHex) : x ≠ 0 ∧ x ≠ 10 ∧ x ≠ 32 :=
  mem_hexEncode h

end ObjectId

/-- How a push changes a ref. -/
inductive PushKind where
  | create
  | delete
  | fastForward
  | forcePush
deriving DecidableEq, Repr

namespace PushKind

/-- The classification that every backend writes out: the two null tests, then the ancestor test. -/
def classify (oldOid newOid : ObjectId) (isAncestor : Bool) : PushKind :=
  if oldOid.isNull then .create
  else if newOid.isNull then .delete
  else if isAncestor then .fastForward
  else .forcePush

theorem classify_of_old_null (h : old = .null) (b : Bool) : classify old new b = .create := by
  simp [classify, h]

theorem classify_of_new_null (hold : old ≠ .null) (hnew : new = .null) (b : Bool) :
    classify old new b = .delete := by simp [classify, hold, hnew]

theorem classify_of_ne (hold : old ≠ .null) (hnew : new ≠ .null) (b : Bool) :
    classify old new b = if b then .fastForward else .forcePush := by simp [classify, hold, hnew]

end PushKind

/-- One parsed command of a receive-pack request. -/
structure RefUpdate where
  oldOid : ObjectId
  newOid : ObjectId
  refname : String
deriving DecidableEq

/-- A ref update as it is shown to the authoriser. -/
structure PushRef where
  refname : String
  kind : PushKind
  oldOid : ObjectId
  newOid : ObjectId
deriving DecidableEq

end Mizzle
