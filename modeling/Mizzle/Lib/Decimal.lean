import Mizzle.Lib.Bytes

/-!
# Decimal and octal numbers

Numbers written in digits, and reading them back.
-/

namespace Mizzle.Lib

/-- The digits of a number, the lowest first. -/
def decimalDigits (n : Nat) : List Nat := if n = 0 then [0] else Nat.digits 10 n

def decimalText (n : Nat) : String :=
  String.ofList ((decimalDigits n).reverse.map fun d => Char.ofNat (48 + d))

def decimal (n : Nat) : Bytes := utf8 (decimalText n)

theorem lt_of_mem_decimalDigits {n d : Nat} (h : d ∈ decimalDigits n) : d < 10 := by
  unfold decimalDigits at h
  split at h
  · rw [List.mem_singleton.mp h]
    decide
  · exact Nat.digits_lt_base (by decide) h

theorem ofDigits_decimalDigits (n : Nat) : Nat.ofDigits 10 (decimalDigits n) = n := by
  unfold decimalDigits
  split
  · simp_all
  · exact Nat.ofDigits_digits 10 n

variable {ds : List Nat} {b : UInt8}

theorem utf8_digits (h : ∀ d ∈ ds, d < 10) :
    utf8 (String.ofList (ds.map fun d => Char.ofNat (48 + d))) = ds.map fun d =>
      UInt8.ofNat (48 + d) := by
  have hchar : ∀ d ∈ ds, (Char.ofNat (48 + d)).toNat = 48 + d := by
    intro d hd
    have := h d hd
    interval_cases d <;> rfl
  rw [utf8_ofList_ascii, List.map_map]
  · refine List.map_congr_left fun d hd => ?_
    rw [Function.comp_apply, hchar d hd]
  · intro c hc
    obtain ⟨d, hd, rfl⟩ := List.mem_map.mp hc
    have := h d hd
    rw [hchar d hd]
    omega

theorem le_of_mem_digits (h : ∀ d ∈ ds, d < 10) (hb : b ∈ ds.map fun d => UInt8.ofNat (48 + d)) :
    48 ≤ b.toNat := by
  obtain ⟨d, hd, rfl⟩ := List.mem_map.mp hb
  have := h d hd
  rw [UInt8.toNat_ofNat_of_lt' (show 48 + d < 256 by omega)]
  omega

theorem decimal_eq (n : Nat) :
    decimal n = (decimalDigits n).reverse.map fun d => UInt8.ofNat (48 + d) :=
  utf8_digits fun _ hd => lt_of_mem_decimalDigits (List.mem_reverse.mp hd)

/-- The value of a string of digits in a base up to ten. -/
def radixNumber (base : Nat) (digits : Bytes) : Option Nat :=
  digits.foldlM (fun n b => if 48 ≤ b.toNat ∧ b.toNat < 48 + base then some (base * n + (b.toNat - 48)) else none) 0

def decimalNumber (digits : Bytes) : Option Nat := radixNumber 10 digits

theorem foldlM_digits {base : Nat} (hbase : base ≤ 10) (h : ∀ d ∈ ds, d < base) (acc : Nat) :
    (ds.reverse.map fun d => UInt8.ofNat (48 + d)).foldlM
      (fun n b => if 48 ≤ b.toNat ∧ b.toNat < 48 + base then some (base * n + (b.toNat - 48)) else none) acc =
      some (acc * base ^ ds.length + Nat.ofDigits base ds) := by
  induction ds with
  | nil => simp
  | cons d ds ih =>
    have hd := h d List.mem_cons_self
    have hbyte : (UInt8.ofNat (48 + d)).toNat = 48 + d :=
      UInt8.toNat_ofNat_of_lt' (show 48 + d < 256 by omega)
    rw [List.reverse_cons, List.map_append, List.foldlM_append, ih fun x hx => h x (List.mem_cons_of_mem _ hx)]
    simp only [Option.bind_eq_bind, Option.bind_some, List.map_cons, List.map_nil, List.foldlM_cons,
      List.foldlM_nil, hbyte]
    rw [if_pos (by omega)]
    simp only [Option.bind_some, Option.pure_def, Nat.ofDigits_cons, List.length_cons, pow_succ, Option.some.injEq]
    rw [Nat.add_sub_cancel_left]
    ring

theorem radixNumber_digits {base : Nat} (hbase : base ≤ 10) (h : ∀ d ∈ ds, d < base) :
    radixNumber base (ds.reverse.map fun d => UInt8.ofNat (48 + d)) =
      some (Nat.ofDigits base ds) := by
  rw [radixNumber, foldlM_digits hbase h, Nat.zero_mul, Nat.zero_add]

/-- **A number is read back.** -/
theorem decimalNumber_decimal (n : Nat) : decimalNumber (decimal n) = some n := by
  rw [decimalNumber, decimal_eq, radixNumber_digits le_rfl fun _ => lt_of_mem_decimalDigits, ofDigits_decimalDigits]

theorem decimal_ne_nil (n : Nat) : decimal n ≠ [] := by
  rw [decimal_eq, decimalDigits]
  split
  · decide
  · simpa [Nat.digits_eq_nil_iff_eq_zero]

theorem head?_decimal_ne {n : Nat} (hb : b.toNat < 48) : (decimal n).head? ≠ some b := by
  intro hhead
  have hmem := List.mem_of_mem_head? hhead
  rw [decimal_eq] at hmem
  have := le_of_mem_digits (fun _ hd => lt_of_mem_decimalDigits (List.mem_reverse.mp hd)) hmem
  omega

theorem mem_decimalText {n : Nat} {c : Char} (h : c ∈ (decimalText n).toList) :
    48 ≤ c.toNat ∧ c.toNat ≤ 57 := by
  rw [decimalText, String.toList_ofList] at h
  obtain ⟨d, hd, rfl⟩ := List.mem_map.mp h
  have hlt := lt_of_mem_decimalDigits (List.mem_reverse.mp hd)
  interval_cases d <;> decide

/-! ### Octal numbers -/

/-- The octal digits, the lowest first, at least `width` of them. -/
def octalDigits (width n : Nat) : List Nat :=
  Nat.digits 8 n ++ List.replicate (width - (Nat.digits 8 n).length) 0

def octalText (width n : Nat) : String :=
  String.ofList ((octalDigits width n).reverse.map fun d => Char.ofNat (48 + d))

theorem lt_of_mem_octalDigits {width n d : Nat} (h : d ∈ octalDigits width n) : d < 8 := by
  rcases List.mem_append.mp h with h | h
  · exact Nat.digits_lt_base (by decide) h
  · rw [List.eq_of_mem_replicate h]
    decide

theorem lt_ten_of_mem_octalDigits {width n d : Nat} (h : d ∈ (octalDigits width n).reverse) :
    d < 10 :=
  (lt_of_mem_octalDigits (List.mem_reverse.mp h)).trans (by decide)

theorem utf8_octalText (width n : Nat) :
    utf8 (octalText width n) = (octalDigits width n).reverse.map fun d => UInt8.ofNat (48 + d) :=
  utf8_digits fun _ => lt_ten_of_mem_octalDigits

theorem radixNumber_octalText (width n : Nat) :
    radixNumber 8 (utf8 (octalText width n)) = some n := by
  rw [utf8_octalText, radixNumber_digits (by decide) fun _ => lt_of_mem_octalDigits, octalDigits, Nat.ofDigits_append,
    Nat.ofDigits_digits, Nat.ofDigits_replicate_zero, Nat.mul_zero, Nat.add_zero]

theorem mem_octalText {width n : Nat} {c : Char} (h : c ∈ (octalText width n).toList) :
    48 ≤ c.toNat ∧ c.toNat < 56 := by
  rw [octalText, String.toList_ofList] at h
  obtain ⟨d, hd, rfl⟩ := List.mem_map.mp h
  have hlt := lt_of_mem_octalDigits (List.mem_reverse.mp hd)
  interval_cases d <;> decide

theorem head?_octalText_ne {width n : Nat} (hb : b.toNat < 48) :
    (utf8 (octalText width n)).head? ≠ some b := by
  intro hhead
  have hmem := List.mem_of_mem_head? hhead
  rw [utf8_octalText] at hmem
  have := le_of_mem_digits (fun _ => lt_ten_of_mem_octalDigits) hmem
  omega

theorem octalText_ne_nil {width : Nat} (hwidth : 0 < width) (n : Nat) :
    (octalText width n).toList ≠ [] := by
  have hlength : 0 < (octalText width n).toList.length := by
    rw [octalText, String.toList_ofList, List.length_map, List.length_reverse, octalDigits, List.length_append,
      List.length_replicate]
    omega
  exact List.ne_nil_of_length_pos hlength

end Mizzle.Lib
