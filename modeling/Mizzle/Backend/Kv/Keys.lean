import Mizzle.Proto.Types

/-!
# The key layout of the KV backend

`mizzle/src/backend/kv/keys.rs`. Every logical table has a one-byte prefix; repository ids and
positions are big-endian, so that byte order is numeric order inside a table. The range scans use a
prefix and its successor as half-open bounds: `between_iff_prefix` says that such a range is exactly
the set of keys with that prefix.
-/

namespace Mizzle.Kv

open Lib

def prefixRepoIndex : UInt8 := 0x01
def prefixNextRepoId : UInt8 := 0x02
def prefixRepoMeta : UInt8 := 0x03
def prefixRef : UInt8 := 0x04
def prefixObj : UInt8 := 0x05
def prefixPar : UInt8 := 0x06

def repoMetaExists : UInt8 := 0x00
def repoMetaHead : UInt8 := 0x01

/-- `u64::to_be_bytes`. -/
def be64 (n : UInt64) : Bytes := bigEndian 8 n.toNat

/-- `u16::to_be_bytes`. -/
def be16 (n : UInt16) : Bytes := bigEndian 2 n.toNat

def repoIndex (path : String) : Bytes := prefixRepoIndex :: utf8 path

def nextRepoId : Bytes := [prefixNextRepoId]

def repoMeta (repoId : UInt64) (tag : UInt8) : Bytes := prefixRepoMeta :: be64 repoId ++ [tag]

def refsPrefixStart (repoId : UInt64) : Bytes := prefixRef :: be64 repoId

def refkey (repoId : UInt64) (name : String) : Bytes := prefixRef :: be64 repoId ++ utf8 name

def obj (repoId : UInt64) (oid : ObjectId) : Bytes := prefixObj :: be64 repoId ++ oid.bytes

def par (repoId : UInt64) (commitOid : ObjectId) (pos : UInt16) : Bytes :=
  prefixPar :: be64 repoId ++ commitOid.bytes ++ be16 pos

def parentsPrefixStart (repoId : UInt64) (commitOid : ObjectId) : Bytes :=
  prefixPar :: be64 repoId ++ commitOid.bytes

/-- The last byte below `0xFF` raised by one and everything after it dropped; `none` when there is
no such byte. -/
def bump : Bytes → Option Bytes
  | [] => none
  | b :: rest =>
    match bump rest with
    | some rest' => some (b :: rest')
    | none => if b < 0xFF then some [b + 1] else none

/-- `increment_in_place`: the exclusive upper bound of the keys that start with `key`. -/
def incrementInPlace (key : Bytes) : Bytes := (bump key).getD (key ++ [0x00])

def refsPrefixEnd (repoId : UInt64) : Bytes := incrementInPlace (refsPrefixStart repoId)

def parentsPrefixEnd (repoId : UInt64) (commitOid : ObjectId) : Bytes :=
  incrementInPlace (parentsPrefixStart repoId commitOid)

/-! ### Keys of different rows differ -/

theorem be64_injective {a b : UInt64} (h : be64 a = be64 b) : a = b := by
  have hnat := bigEndian_injective (w := 8) a.toNat_lt b.toNat_lt h
  exact UInt64.toNat_inj.mp hnat

@[simp] theorem length_be64 (n : UInt64) : (be64 n).length = 8 := length_bigEndian 8 _

theorem be64_append_inj {a b : UInt64} {x y : Bytes} (h : be64 a ++ x = be64 b ++ y) :
    a = b ∧ x = y := by
  obtain ⟨hhead, htail⟩ := List.append_inj h (by simp)
  exact ⟨be64_injective hhead, htail⟩

theorem refkey_inj {r r' : UInt64} {n n' : String} :
    refkey r n = refkey r' n' ↔ r = r' ∧ n = n' := by
  constructor
  · intro h
    simp only [refkey, List.cons_append, List.cons.injEq, true_and] at h
    obtain ⟨hrepo, hname⟩ := be64_append_inj h
    exact ⟨hrepo, utf8_injective hname⟩
  · rintro ⟨rfl, rfl⟩
    rfl

theorem refkey_ne_obj (r r' : UInt64) (n : String) (o : ObjectId) : refkey r n ≠ obj r' o := by
  simp [refkey, obj, prefixRef, prefixObj]

theorem refkey_ne_par (r r' : UInt64) (n : String) (c : ObjectId) (p : UInt16) :
    refkey r n ≠ par r' c p := by
  simp [refkey, par, prefixRef, prefixPar]

theorem obj_ne_par (r r' : UInt64) (o c : ObjectId) (p : UInt16) : obj r o ≠ par r' c p := by
  simp [obj, par, prefixObj, prefixPar]

theorem obj_inj {r r' : UInt64} {o o' : ObjectId} : obj r o = obj r' o' ↔ r = r' ∧ o = o' := by
  constructor
  · intro h
    simp only [obj, List.cons_append, List.cons.injEq, true_and] at h
    obtain ⟨hrepo, hoid⟩ := be64_append_inj h
    exact ⟨hrepo, ObjectId.ext_bytes hoid⟩
  · rintro ⟨rfl, rfl⟩
    rfl

theorem parentsPrefixStart_prefix_par {r r' : UInt64} {c c' : ObjectId} {p : UInt16} :
    parentsPrefixStart r c <+: par r' c' p ↔ r = r' ∧ c = c' := by
  constructor
  · rintro ⟨rest, h⟩
    simp only [parentsPrefixStart, par, List.cons_append, List.append_assoc, List.cons.injEq, true_and] at h
    obtain ⟨hrepo, hrest⟩ := be64_append_inj h
    obtain ⟨hcommit, -⟩ := List.append_inj hrest (by rw [c.length_eq, c'.length_eq])
    exact ⟨hrepo, ObjectId.ext_bytes hcommit⟩
  · rintro ⟨rfl, rfl⟩
    exact ⟨be16 p, by simp [parentsPrefixStart, par]⟩

/-! ### Prefix ranges -/

/-- `lo ≤ key < hi` in byte order. -/
def Between (lo hi key : Bytes) : Prop := (compare lo key).isLE ∧ compare key hi = .lt

instance (lo hi key : Bytes) : Decidable (Between lo hi key) := inferInstanceAs (Decidable (_ ∧ _))

theorem isLE_iff_prefix_of_bump_none {p k : Bytes} (h : bump p = none) :
    (compare p k).isLE ↔ p <+: k := by
  induction p generalizing k with
  | nil => exact ⟨fun _ => List.nil_prefix, fun _ => List.isLE_compare_nil_left⟩
  | cons b rest ih =>
    rw [bump] at h
    split at h
    · simp at h
    · rename_i hrest
      have hb : b = 0xFF := by
        by_contra hne
        have hlt : b < 0xFF := by
          rw [UInt8.lt_iff_toNat_lt]
          have := b.toNat_lt
          have hne' : b.toNat ≠ 255 := fun heq => hne (UInt8.toNat_inj.mp heq)
          show b.toNat < 255
          omega
        rw [if_pos hlt] at h
        simp at h
      cases k with
      | nil => simp
      | cons x xs =>
        rw [List.compare_cons_cons, List.cons_prefix_cons]
        by_cases hx : b = x
        · rw [Std.compare_eq_iff_eq.mpr hx]
          simpa [hx] using ih hrest
        · have hgt : compare b x = .gt := by
            rw [Std.compare_eq_gt, hb, UInt8.lt_iff_toNat_lt]
            have := x.toNat_lt
            have hne' : x.toNat ≠ 255 := fun heq => hx (by rw [hb]; exact (UInt8.toNat_inj.mp heq).symm)
            show x.toNat < 255
            omega
          simp [hgt, hx]

theorem between_iff_prefix_of_bump {p q k : Bytes} (h : bump p = some q) :
    Between p q k ↔ p <+: k := by
  induction p generalizing q k with
  | nil => simp [bump] at h
  | cons b rest ih =>
    rw [bump] at h
    cases k with
    | nil => simp [Between]
    | cons x xs =>
      rw [Between, List.compare_cons_cons, List.cons_prefix_cons]
      split at h
      · rename_i rest' hrest
        obtain rfl := Option.some.inj h
        rw [List.compare_cons_cons]
        rcases hcmp : compare b x with _ | _ | _
        · have hgt : compare x b = .gt := Std.compare_eq_gt.mpr (Std.compare_eq_lt.mp hcmp)
          have hne : b ≠ x := fun heq => by rw [Std.compare_eq_iff_eq.mpr heq] at hcmp; simp at hcmp
          simp [hgt, hne]
        · obtain rfl := Std.compare_eq_iff_eq.mp hcmp
          simpa [Between, hcmp] using ih hrest
        · have hne : b ≠ x := fun heq => by rw [Std.compare_eq_iff_eq.mpr heq] at hcmp; simp at hcmp
          simp [hne]
      · rename_i hrest
        split at h
        · rename_i hb
          obtain rfl := Option.some.inj h
          rw [List.compare_cons_cons]
          have hsucc : (b + 1).toNat = b.toNat + 1 := by
            have hlt : b.toNat < 255 := hb
            rw [UInt8.toNat_add]
            show (b.toNat + 1) % 256 = b.toNat + 1
            omega
          rcases hcmp : compare b x with _ | _ | _
          · -- above `b` there is nothing below `b + 1`
            have hlt := UInt8.lt_iff_toNat_lt.mp (Std.compare_eq_lt.mp hcmp)
            have hne : b ≠ x := fun heq => by rw [Std.compare_eq_iff_eq.mpr heq] at hcmp; simp at hcmp
            have hnlt : (compare x (b + 1)).then (compare xs []) ≠ .lt := by
              rcases hx : compare x (b + 1) with _ | _ | _
              · have := UInt8.lt_iff_toNat_lt.mp (Std.compare_eq_lt.mp hx)
                omega
              · cases xs <;> simp
              · simp
            simp [hnlt, hne]
          · obtain rfl := Std.compare_eq_iff_eq.mp hcmp
            have hlt : compare b (b + 1) = .lt := by
              rw [Std.compare_eq_lt, UInt8.lt_iff_toNat_lt, hsucc]
              omega
            simpa [hlt] using isLE_iff_prefix_of_bump_none hrest
          · have hne : b ≠ x := fun heq => by rw [Std.compare_eq_iff_eq.mpr heq] at hcmp; simp at hcmp
            simp [hne]
        · simp at h

theorem bump_cons_isSome {b : UInt8} (hb : b < 0xFF) (rest : Bytes) :
    ∃ q, bump (b :: rest) = some q := by
  rw [bump]
  cases bump rest with
  | some rest' => exact ⟨_, rfl⟩
  | none => exact ⟨_, if_pos hb⟩

/-- **The scan range of a prefix is the set of keys with that prefix.** -/
theorem between_iff_prefix {b : UInt8} (hb : b < 0xFF) (rest k : Bytes) :
    Between (b :: rest) (incrementInPlace (b :: rest)) k ↔ (b :: rest) <+: k := by
  obtain ⟨q, hq⟩ := bump_cons_isSome hb rest
  rw [incrementInPlace, hq, Option.getD_some]
  exact between_iff_prefix_of_bump hq

end Mizzle.Kv
