import Mathlib

/-!
# Byte strings

Byte strings are lists of `UInt8`. This module has the UTF-8 view of a `String`, hexadecimal digits,
fixed-width big-endian numbers, and cutting a byte string at its first separator.
-/

namespace Mizzle.Lib

abbrev Bytes := List UInt8

/-! ### UTF-8 -/

/-- The UTF-8 bytes of a string. -/
def utf8 (s : String) : Bytes := s.toByteArray.data.toList

theorem utf8_append (s t : String) : utf8 (s ++ t) = utf8 s ++ utf8 t := by
  simp [utf8]

/-- The string a byte string encodes, if it is well-formed UTF-8. -/
def fromUtf8 (bs : Bytes) : Option String := String.fromUTF8? ⟨bs.toArray⟩

@[simp] theorem fromUtf8_utf8 (s : String) : fromUtf8 (utf8 s) = some s := by
  have hbytes : (⟨(utf8 s).toArray⟩ : ByteArray) = s.toByteArray := by simp [utf8]
  rw [fromUtf8, hbytes, String.fromUTF8?, dif_pos s.isValidUTF8]
  rfl

variable {bs : Bytes} {sep : UInt8}

theorem length_utf8_of_fromUtf8 {s : String} (h : fromUtf8 bs = some s) :
    (utf8 s).length = bs.length := by
  unfold fromUtf8 String.fromUTF8? at h
  split at h
  · obtain rfl := Option.some.inj h
    simp [utf8, String.fromUTF8]
  · simp at h

theorem utf8_injective {s t : String} (h : utf8 s = utf8 t) : s = t := by
  have hsome : some s = some t := by rw [← fromUtf8_utf8 s, ← fromUtf8_utf8 t, h]
  exact Option.some.inj hsome

@[simp] theorem utf8_inj {s t : String} : utf8 s = utf8 t ↔ s = t :=
  ⟨utf8_injective, fun h => by rw [h]⟩

theorem utf8_ofList_ascii {cs : List Char} (h : ∀ c ∈ cs, c.toNat < 128) :
    utf8 (String.ofList cs) = cs.map fun c => UInt8.ofNat c.toNat := by
  rw [utf8, String.toByteArray_ofList]
  induction cs with
  | nil => rfl
  | cons c cs ih =>
    have hc := h c List.mem_cons_self
    have hsize : c.utf8Size = 1 := by
      rw [Char.utf8Size_eq_one_iff]
      exact UInt32.le_iff_toNat_le.mpr (by simpa using Nat.lt_succ_iff.mp hc)
    have hfirst : [c].utf8Encode.data.toList = [UInt8.ofNat c.toNat] := by
      rw [List.utf8Encode_singleton, String.utf8EncodeChar_eq_singleton hsize]
      rfl
    rw [List.utf8Encode_cons, List.map_cons, ← ih fun x hx => h x (List.mem_cons_of_mem _ hx), ByteArray.data_append,
      Array.toList_append, hfirst]
    rfl

theorem utf8_ofList_map_ofNat (h : ∀ b ∈ bs, b.toNat < 128) :
    utf8 (String.ofList (bs.map fun b => Char.ofNat b.toNat)) = bs := by
  have hchar : ∀ b ∈ bs, (Char.ofNat b.toNat).toNat = b.toNat := fun b hb => by
    have hlt := h b hb
    rw [Char.toNat_ofNat, if_pos (Or.inl (by omega))]
  rw [utf8_ofList_ascii, List.map_map]
  · refine (List.map_congr_left fun b hb => ?_).trans (List.map_id bs)
    rw [Function.comp_apply, hchar b hb, UInt8.ofNat_toNat, id]
  · intro c hc
    obtain ⟨b, hb, rfl⟩ := List.mem_map.mp hc
    rw [hchar b hb]
    exact h b hb

theorem isSome_fromUtf8_of_ascii (h : ∀ b ∈ bs, b.toNat < 128) : (fromUtf8 bs).isSome := by
  rw [← utf8_ofList_map_ofNat h, fromUtf8_utf8]
  rfl

/-! ### Hexadecimal digits -/

/-- The lower-case digit of a value below 16. -/
def hexDigit (n : Nat) : UInt8 := if n < 10 then UInt8.ofNat (48 + n) else UInt8.ofNat (87 + n)

/-- The value of a digit in either case. -/
def hexValue (b : UInt8) : Option Nat :=
  if 48 ≤ b.toNat ∧ b.toNat ≤ 57 then some (b.toNat - 48)
  else if 97 ≤ b.toNat ∧ b.toNat ≤ 102 then some (b.toNat - 87)
  else if 65 ≤ b.toNat ∧ b.toNat ≤ 70 then some (b.toNat - 55)
  else none

theorem hexValue_hexDigit {n : Nat} (h : n < 16) : hexValue (hexDigit n) = some n := by
  interval_cases n <;> decide

theorem hexValue_lt {b : UInt8} {n : Nat} (h : hexValue b = some n) : n < 16 := by
  unfold hexValue at h
  split at h
  · obtain rfl := Option.some.inj h
    omega
  · split at h
    · obtain rfl := Option.some.inj h
      omega
    · split at h
      · obtain rfl := Option.some.inj h
        omega
      · simp at h

/-- Two digits for each byte, high half first. -/
def hexEncode (bs : Bytes) : Bytes :=
  bs.flatMap fun b => [hexDigit (b.toNat / 16), hexDigit (b.toNat % 16)]

def hexDecode : Bytes → Option Bytes
  | [] => some []
  | [_] => none
  | a :: b :: rest => do
      let high ← hexValue a
      let low ← hexValue b
      let tail ← hexDecode rest
      return UInt8.ofNat (16 * high + low) :: tail

@[simp] theorem hexDecode_hexEncode (bs : Bytes) : hexDecode (hexEncode bs) = some bs := by
  induction bs with
  | nil => rfl
  | cons b bs ih =>
    have hb := b.toNat_lt
    have hhigh := hexValue_hexDigit (n := b.toNat / 16) (by omega)
    have hlow := hexValue_hexDigit (n := b.toNat % 16) (by omega)
    have hcons : hexEncode (b :: bs)
        = hexDigit (b.toNat / 16) :: hexDigit (b.toNat % 16) :: hexEncode bs := rfl
    rw [hcons, hexDecode, hhigh, hlow, ih]
    show some (UInt8.ofNat (16 * (b.toNat / 16) + b.toNat % 16) :: bs) = some (b :: bs)
    rw [show 16 * (b.toNat / 16) + b.toNat % 16 = b.toNat by omega, UInt8.ofNat_toNat]

theorem length_of_hexDecode {bs out : Bytes} (h : hexDecode bs = some out) :
    bs.length = 2 * out.length := by
  induction bs using hexDecode.induct generalizing out with
  | case1 =>
    obtain rfl := Option.some.inj h
    rfl
  | case2 => simp [hexDecode] at h
  | case3 a b rest ih =>
    simp only [hexDecode, Option.bind_eq_bind, Option.bind_eq_some_iff, Option.pure_def] at h
    obtain ⟨high, -, low, -, tail, htail, hout⟩ := h
    obtain rfl := Option.some.inj hout
    simp only [List.length_cons, ih htail]
    omega

theorem length_hexEncode (bs : Bytes) : (hexEncode bs).length = 2 * bs.length :=
  length_of_hexDecode (hexDecode_hexEncode bs)

theorem range_of_mem_hexEncode {x : UInt8} (h : x ∈ hexEncode bs) :
    48 ≤ x.toNat ∧ x.toNat ≤ 57 ∨ 97 ≤ x.toNat ∧ x.toNat ≤ 102 := by
  have hdigit : ∀ n < 16, 48 ≤ (hexDigit n).toNat ∧ (hexDigit n).toNat ≤ 57 ∨
      97 ≤ (hexDigit n).toNat ∧ (hexDigit n).toNat ≤ 102 := by
    decide
  rw [hexEncode, List.mem_flatMap] at h
  obtain ⟨b, -, hx⟩ := h
  have hb := b.toNat_lt
  simp only [List.mem_cons, List.not_mem_nil, or_false] at hx
  rcases hx with rfl | rfl
  · exact hdigit _ (by omega)
  · exact hdigit _ (by omega)

theorem range_of_mem_map_hexEncode {c : Char}
    (h : c ∈ (hexEncode bs).map fun b => Char.ofNat b.toNat) :
    48 ≤ c.toNat ∧ c.toNat ≤ 57 ∨ 97 ≤ c.toNat ∧ c.toNat ≤ 102 := by
  obtain ⟨b, hb, rfl⟩ := List.mem_map.mp h
  have hrange := range_of_mem_hexEncode hb
  rwa [Char.toNat_ofNat, if_pos (Or.inl (by omega))]

theorem utf8_ofList_map_hexEncode (bs : Bytes) :
    utf8 (String.ofList ((hexEncode bs).map fun b => Char.ofNat b.toNat)) = hexEncode bs := by
  refine utf8_ofList_map_ofNat fun b hb => ?_
  have hrange := range_of_mem_hexEncode hb
  omega

theorem mem_hexEncode {x : UInt8} (h : x ∈ hexEncode bs) : x ≠ 0 ∧ x ≠ 10 ∧ x ≠ 32 := by
  have hrange := range_of_mem_hexEncode h
  refine ⟨?_, ?_, ?_⟩
  all_goals
    rintro rfl
    exact absurd hrange (by decide)

/-! ### Big-endian numbers -/

/-- The low `w` bytes of `n`, most significant first. -/
def bigEndian : Nat → Nat → Bytes
  | 0, _ => []
  | w + 1, n => UInt8.ofNat (n / 256 ^ w) :: bigEndian w n

@[simp] theorem length_bigEndian (w n : Nat) : (bigEndian w n).length = w := by
  induction w with
  | zero => rfl
  | succ w ih => simp [bigEndian, ih]

theorem bigEndian_mod (w n m : Nat) (hmod : bigEndian w n = bigEndian w m) :
    n % 256 ^ w = m % 256 ^ w := by
  induction w with
  | zero => simp [Nat.mod_one]
  | succ w ih =>
    simp only [bigEndian, List.cons.injEq] at hmod
    obtain ⟨hhead, htail⟩ := hmod
    have hlow := ih htail
    have hhigh : n / 256 ^ w % 256 = m / 256 ^ w % 256 := by
      have := congrArg UInt8.toNat hhead
      simpa using this
    rw [pow_succ, Nat.mod_mul, Nat.mod_mul, hlow, hhigh]

theorem bigEndian_injective {w n m : Nat} (hn : n < 256 ^ w) (hm : m < 256 ^ w)
    (h : bigEndian w n = bigEndian w m) : n = m := by
  have hmod := bigEndian_mod w n m h
  rwa [Nat.mod_eq_of_lt hn, Nat.mod_eq_of_lt hm] at hmod

/-! ### Cutting at a separator -/

/-- The part before the first `sep`, and the part after it when there is one. -/
def cut (sep : UInt8) : Bytes → Bytes × Option Bytes
  | [] => ([], none)
  | x :: xs => if x = sep then ([], some xs) else (x :: (cut sep xs).1, (cut sep xs).2)

theorem cut_append {before : Bytes} (h : sep ∉ before) (after : Bytes) :
    cut sep (before ++ sep :: after) = (before, some after) := by
  induction before with
  | nil => simp [cut]
  | cons b before ih =>
    have hb : b ≠ sep := fun heq => h (heq ▸ List.mem_cons_self)
    rw [List.cons_append, cut, if_neg hb, ih fun hmem => h (List.mem_cons_of_mem _ hmem)]

theorem cut_of_notMem (h : sep ∉ bs) : cut sep bs = (bs, none) := by
  induction bs with
  | nil => rfl
  | cons b bs ih =>
    have hb : b ≠ sep := fun heq => h (heq ▸ List.mem_cons_self)
    rw [cut, if_neg hb, ih fun hmem => h (List.mem_cons_of_mem _ hmem)]

theorem length_cut_fst_le (sep : UInt8) (bs : Bytes) : (cut sep bs).1.length ≤ bs.length := by
  induction bs with
  | nil => exact le_rfl
  | cons x bs ih =>
    rw [cut]
    split
    · simp
    · simpa using ih

theorem cut_eq_some {bs before after : Bytes} (h : cut sep bs = (before, some after)) :
    bs = before ++ sep :: after := by
  induction bs generalizing before with
  | nil => simp [cut] at h
  | cons x bs ih =>
    rw [cut] at h
    split at h
    · rename_i hx
      obtain ⟨rfl, hafter⟩ := Prod.mk.inj h
      obtain rfl := Option.some.inj hafter
      rw [hx, List.nil_append]
    · obtain ⟨rfl, hafter⟩ := Prod.mk.inj h
      rw [List.cons_append, ← ih (Prod.ext rfl hafter)]

theorem cut_eq_none {bs before : Bytes} (h : cut sep bs = (before, none)) : before = bs := by
  induction bs generalizing before with
  | nil => exact (Prod.mk.inj h).1.symm
  | cons x bs ih =>
    rw [cut] at h
    split at h
    · cases h
    · obtain ⟨rfl, hafter⟩ := Prod.mk.inj h
      exact congrArg (x :: ·) (ih (Prod.ext rfl hafter))

theorem length_cut {bs before after : Bytes} (h : cut sep bs = (before, some after)) :
    bs.length = before.length + after.length + 1 := by
  rw [cut_eq_some h, List.length_append, List.length_cons, Nat.add_assoc]

theorem length_cut_snd_le (sep : UInt8) (bs : Bytes) :
    ((cut sep bs).2.getD []).length ≤ bs.length := by
  cases hcut : cut sep bs with
  | mk before after =>
    cases after with
    | none => exact Nat.zero_le _
    | some after =>
      rw [length_cut hcut, Option.getD_some]
      omega

end Mizzle.Lib
