import Mizzle.Lib.Bytes

/-!
# Byte order

The order of byte strings, under a common beginning and on big-endian numbers of one width; reading
such numbers back, and little-endian numbers.
-/

namespace Mizzle.Lib

theorem compare_append_left (p x y : Bytes) : compare (p ++ x) (p ++ y) = compare x y := by
  induction p with
  | nil => rfl
  | cons b p ih => rw [List.cons_append, List.cons_append, List.compare_cons_cons, ih,
    Std.compare_self, Ordering.eq_then]

theorem compare_digits {b a a' r r' : Nat} (hr : r < b) (hr' : r' < b) :
    (compare a a').then (compare r r') = compare (r + b * a) (r' + b * a') := by
  rcases Nat.lt_trichotomy a a' with h | rfl | h
  · have hmul := Nat.mul_le_mul_left b h
    rw [Nat.mul_succ] at hmul
    rw [Nat.compare_eq_lt.mpr h, Ordering.lt_then, eq_comm, Nat.compare_eq_lt]
    omega
  · rw [Nat.compare_eq_eq.mpr rfl, Ordering.eq_then]
    simp only [Nat.compare_eq_ite_lt, Nat.add_lt_add_iff_right]
  · have hmul := Nat.mul_le_mul_left b h
    rw [Nat.mul_succ] at hmul
    rw [Nat.compare_eq_gt.mpr h, Ordering.gt_then, eq_comm, Nat.compare_eq_gt]
    omega

theorem compare_bigEndian_mod (w n m : Nat) :
    compare (bigEndian w n) (bigEndian w m) = compare (n % 256 ^ w) (m % 256 ^ w) := by
  induction w with
  | zero => simp [bigEndian, Nat.mod_one]
  | succ w ih =>
    have hbyte : ∀ a b : Nat, compare (UInt8.ofNat a) (UInt8.ofNat b) = compare (a % 256) (b % 256) := by
      intro a b
      rw [UInt8.compare_eq_toNat_compare_toNat]
      simp
    have hpos : 0 < 256 ^ w := by positivity
    rw [bigEndian, bigEndian, List.compare_cons_cons, ih, hbyte,
      compare_digits (Nat.mod_lt n hpos) (Nat.mod_lt m hpos), pow_succ, Nat.mod_mul, Nat.mod_mul]

theorem compare_bigEndian {w n m : Nat} (hn : n < 256 ^ w) (hm : m < 256 ^ w) :
    compare (bigEndian w n) (bigEndian w m) = compare n m := by
  rw [compare_bigEndian_mod, Nat.mod_eq_of_lt hn, Nat.mod_eq_of_lt hm]

/-! ### Reading numbers -/

/-- The number with these digits, most significant first. -/
def ofBigEndian (bs : Bytes) : Nat := bs.foldl (fun n b => 256 * n + b.toNat) 0

theorem foldl_bigEndian (w n acc : Nat) :
    (bigEndian w n).foldl (fun n b => 256 * n + b.toNat) acc = acc * 256 ^ w + n % 256 ^ w := by
  induction w generalizing acc with
  | zero => simp [bigEndian, Nat.mod_one]
  | succ w ih =>
    have hdigit : (UInt8.ofNat (n / 256 ^ w)).toNat = n / 256 ^ w % 256 := by simp
    rw [bigEndian, List.foldl_cons, ih, hdigit, pow_succ, Nat.mod_mul]
    ring

theorem ofBigEndian_bigEndian {w n : Nat} (h : n < 256 ^ w) : ofBigEndian (bigEndian w n) = n := by
  rw [ofBigEndian, foldl_bigEndian, Nat.zero_mul, Nat.zero_add, Nat.mod_eq_of_lt h]

theorem foldl_bytes (bs : Bytes) (acc : Nat) :
    bs.foldl (fun n b => 256 * n + b.toNat) acc = acc * 256 ^ bs.length + ofBigEndian bs := by
  rw [ofBigEndian]
  induction bs generalizing acc with
  | nil => simp
  | cons b bs ih =>
    rw [List.foldl_cons, List.foldl_cons, ih, ih (256 * 0 + b.toNat), List.length_cons, pow_succ]
    ring

theorem ofBigEndian_cons (b : UInt8) (bs : Bytes) :
    ofBigEndian (b :: bs) = b.toNat * 256 ^ bs.length + ofBigEndian bs := by
  rw [ofBigEndian, List.foldl_cons, foldl_bytes, Nat.mul_zero, Nat.zero_add]

theorem ofBigEndian_lt (bs : Bytes) : ofBigEndian bs < 256 ^ bs.length := by
  induction bs with
  | nil => decide
  | cons b bs ih =>
    have hb : b.toNat < 256 := b.toNat_lt
    have hmul := Nat.mul_le_mul_right (256 ^ bs.length) (Nat.le_of_lt_succ hb)
    rw [ofBigEndian_cons, List.length_cons, pow_succ]
    omega

theorem bigEndian_congr {w n m : Nat} (h : n % 256 ^ w = m % 256 ^ w) :
    bigEndian w n = bigEndian w m := by
  have hcompare := compare_bigEndian_mod w n m
  rw [h, Std.compare_self] at hcompare
  exact Std.LawfulEqCmp.eq_of_compare hcompare

theorem bigEndian_ofBigEndian (bs : Bytes) : bigEndian bs.length (ofBigEndian bs) = bs := by
  induction bs with
  | nil => rfl
  | cons b bs ih =>
    have hlt := ofBigEndian_lt bs
    have hdiv : ofBigEndian (b :: bs) / 256 ^ bs.length = b.toNat := by
      rw [ofBigEndian_cons, Nat.add_comm, Nat.add_mul_div_right _ _ (by positivity),
        Nat.div_eq_of_lt hlt, Nat.zero_add]
    have hmod : ofBigEndian (b :: bs) % 256 ^ bs.length = ofBigEndian bs % 256 ^ bs.length := by
      rw [ofBigEndian_cons, Nat.add_comm, Nat.add_mul_mod_self_right]
    rw [List.length_cons, bigEndian, hdiv, bigEndian_congr hmod, ih]
    simp

/-- The low `w` bytes of `n`, least significant first. -/
def littleEndian (w n : Nat) : Bytes := (bigEndian w n).reverse

end Mizzle.Lib
