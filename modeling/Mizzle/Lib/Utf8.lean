import Mizzle.Lib.Bytes

/-!
# UTF-8 by characters

The bytes of a text are those of its characters. A byte below 128 is a character of its own, so that
a text can be cut at it (`isSome_fromUtf8_cut`); and the conversion that replaces what is not UTF-8
leaves every text as it is (`fromUtf8Lossy_utf8`).
-/

namespace Mizzle.Lib

theorem utf8_ofList (cs : List Char) :
    utf8 (String.ofList cs) = cs.flatMap String.utf8EncodeChar := by
  rw [utf8, String.toByteArray_ofList]
  induction cs with
  | nil => rfl
  | cons c cs ih =>
    rw [List.utf8Encode_cons, List.flatMap_cons, ← ih, ByteArray.data_append, Array.toList_append,
      List.utf8Encode_singleton,
      List.toList_data_toByteArray]

theorem utf8_eq_flatMap (s : String) : utf8 s = s.toList.flatMap String.utf8EncodeChar := by
  rw [← utf8_ofList, String.ofList_toList]

theorem utf8_ne_nil {s : String} (h : s.toList ≠ []) : utf8 s ≠ [] := by
  obtain ⟨c, cs, hcs⟩ := List.exists_cons_of_ne_nil h
  rw [utf8_eq_flatMap, hcs, List.flatMap_cons]
  exact fun hnil => String.utf8EncodeChar_ne_nil (List.append_eq_nil_iff.mp hnil).1

theorem isSome_fromUtf8_iff {bs : Bytes} : (fromUtf8 bs).isSome ↔ ∃ s, bs = utf8 s := by
  constructor
  · intro h
    obtain ⟨s, hs⟩ := Option.isSome_iff_exists.mp h
    unfold fromUtf8 String.fromUTF8? at hs
    split at hs
    · obtain rfl := Option.some.inj hs
      refine ⟨String.fromUTF8 _ (by assumption), ?_⟩
      simp [utf8, String.fromUTF8]
    · cases hs
  · rintro ⟨s, rfl⟩
    rw [fromUtf8_utf8]
    rfl

theorem utf8EncodeChar_of_ascii_mem {c : Char} {b : UInt8} (h : b ∈ String.utf8EncodeChar c)
    (hb : b.toNat < 128) : String.utf8EncodeChar c = [b] := by
  have hor : ∀ x y : UInt8, 128 ≤ y.toNat → 128 ≤ (x ||| y).toNat := fun x y hy => by
    rw [UInt8.toNat_or]
    exact hy.trans Nat.right_le_or
  rcases c.utf8Size_eq with hsize | hsize | hsize | hsize
  · rw [String.utf8EncodeChar_eq_singleton hsize] at h ⊢
    rw [List.mem_singleton.mp h]
  all_goals
    exfalso
    refine absurd hb (Nat.not_lt.mpr ?_)
  · rw [String.utf8EncodeChar_eq_cons_cons hsize] at h
    simp only [List.mem_cons, List.not_mem_nil, or_false] at h
    rcases h with rfl | rfl <;> exact hor _ _ (by decide)
  · rw [String.utf8EncodeChar_eq_cons_cons_cons hsize] at h
    simp only [List.mem_cons, List.not_mem_nil, or_false] at h
    rcases h with rfl | rfl | rfl <;> exact hor _ _ (by decide)
  · rw [String.utf8EncodeChar_eq_cons_cons_cons_cons hsize] at h
    simp only [List.mem_cons, List.not_mem_nil, or_false] at h
    rcases h with rfl | rfl | rfl | rfl <;> exact hor _ _ (by decide)

theorem flatMap_utf8EncodeChar_cut {b : UInt8} (hb : b.toNat < 128) {before after : Bytes}
    {cs : List Char} (h : before ++ b :: after = cs.flatMap String.utf8EncodeChar) :
    ∃ cs₁ cs₂ : List Char, before = cs₁.flatMap String.utf8EncodeChar ∧ after =
      cs₂.flatMap String.utf8EncodeChar := by
  induction cs generalizing before with
  | nil => simp at h
  | cons c cs ih =>
    rw [List.flatMap_cons] at h
    rcases List.append_eq_append_iff.mp h with ⟨inside, hchar, hafter⟩ | ⟨rest, rfl, hrest⟩
    · cases inside with
      | nil =>
        obtain ⟨-, cs₂, -, hcs₂⟩ := @ih [] hafter
        exact ⟨[c], cs₂, by rw [List.flatMap_singleton, hchar, List.append_nil], hcs₂⟩
      | cons x inside =>
        obtain ⟨rfl, rfl⟩ := List.cons.inj hafter
        have hsingle := utf8EncodeChar_of_ascii_mem (hchar ▸ List.mem_append_right before List.mem_cons_self) hb
        rw [hsingle] at hchar
        have hlength := congrArg List.length hchar
        simp only [List.length_append, List.length_cons, List.length_nil] at hlength
        obtain rfl : before = [] := List.eq_nil_of_length_eq_zero (by omega)
        obtain rfl : inside = [] := List.eq_nil_of_length_eq_zero (by omega)
        exact ⟨[], cs, rfl, rfl⟩
    · obtain ⟨cs₁, cs₂, rfl, hcs₂⟩ := ih hrest.symm
      exact ⟨c :: cs₁, cs₂, by rw [List.flatMap_cons], hcs₂⟩

/-- **A text cut at a byte below 128 is two texts.** -/
theorem isSome_fromUtf8_cut {b : UInt8} (hb : b.toNat < 128) {before after : Bytes}
    (h : (fromUtf8 (before ++ b :: after)).isSome) :
    (fromUtf8 before).isSome ∧ (fromUtf8 after).isSome := by
  obtain ⟨s, hs⟩ := isSome_fromUtf8_iff.mp h
  rw [utf8_eq_flatMap] at hs
  obtain ⟨cs₁, cs₂, rfl, rfl⟩ := flatMap_utf8EncodeChar_cut hb hs
  exact ⟨isSome_fromUtf8_iff.mpr ⟨_, (utf8_ofList cs₁).symm⟩, isSome_fromUtf8_iff.mpr ⟨_, (utf8_ofList cs₂).symm⟩⟩

theorem startsWith_iff_utf8 {pat s : String} {before : Bytes} {b : UInt8} (hb : b.toNat < 128)
    (hpat : utf8 pat = before ++ [b]) : s.startsWith pat ↔ utf8 pat <+: utf8 s := by
  rw [String.startsWith_string_iff]
  constructor
  · rintro ⟨tail, htail⟩
    refine ⟨utf8 (String.ofList tail), ?_⟩
    rw [← utf8_append, utf8_eq_flatMap, utf8_eq_flatMap, String.toList_append, String.toList_ofList, htail]
  · rintro ⟨after, hafter⟩
    have hcut : (fromUtf8 (before ++ b :: after)).isSome := by
      rw [isSome_fromUtf8_iff]
      exact ⟨s, by rw [← hafter, hpat]; simp⟩
    obtain ⟨tail, rfl⟩ := isSome_fromUtf8_iff.mp (isSome_fromUtf8_cut hb hcut).2
    rw [← utf8_append] at hafter
    rw [← utf8_injective hafter, String.toList_append]
    exact List.prefix_append _ _

/-! ### The lossy conversion -/

def firstChar (bs : Bytes) : Option Char := ByteArray.utf8DecodeChar? ⟨bs.toArray⟩ 0

/-- A second byte that may follow the first byte of a character of three or four bytes. -/
def allowedSecond (first second : Nat) : Bool :=
  (first = 0xE0 && 0xA0 ≤ second && second ≤ 0xBF) ||
  (0xE1 ≤ first && first ≤ 0xEC && 0x80 ≤ second && second ≤ 0xBF) ||
  (first = 0xED && 0x80 ≤ second && second ≤ 0x9F) ||
  (0xEE ≤ first && first ≤ 0xEF && 0x80 ≤ second && second ≤ 0xBF) ||
  (first = 0xF0 && 0x90 ≤ second && second ≤ 0xBF) ||
  (0xF1 ≤ first && first ≤ 0xF3 && 0x80 ≤ second && second ≤ 0xBF) ||
  (first = 0xF4 && 0x80 ≤ second && second ≤ 0x8F)

/-- How many bytes one replacement stands for, at bytes that begin with no character: those that
could have begun one. -/
def invalidLength : Bytes → Nat
  | first :: second :: rest =>
    if !allowedSecond first.toNat second.toNat then 1
    else if first.toNat < 0xF0 then 2
    else if rest.head?.any fun third => 0x80 ≤ third.toNat && third.toNat ≤ 0xBF then 3 else 2
  | _ => 1

theorem invalidLength_pos (bs : Bytes) : 0 < invalidLength bs := by
  unfold invalidLength
  split
  · split
    · decide
    split
    · decide
    split <;> decide
  · decide

/-- The characters, with U+FFFD in place of what is not UTF-8. -/
def lossyChars (bs : Bytes) : List Char :=
  if _h : bs = [] then []
  else match firstChar bs with
    | some c => c :: lossyChars (bs.drop c.utf8Size)
    | none => '\uFFFD' :: lossyChars (bs.drop (invalidLength bs))
termination_by bs.length
decreasing_by
  all_goals
    have := List.length_pos_of_ne_nil _h
    rw [List.length_drop]
  · have := c.utf8Size_pos
    omega
  · have := invalidLength_pos bs
    omega

/-- `String::from_utf8_lossy`. -/
def fromUtf8Lossy (bs : Bytes) : String := String.ofList (lossyChars bs)

theorem lossyChars_flatMap (cs : List Char) :
    lossyChars (cs.flatMap String.utf8EncodeChar) = cs := by
  induction cs with
  | nil => rw [List.flatMap_nil, lossyChars, dif_pos rfl]
  | cons c cs ih =>
    have hfirst : firstChar (String.utf8EncodeChar c ++ cs.flatMap String.utf8EncodeChar) = some c := by
      have hbytes : (⟨(String.utf8EncodeChar c ++ cs.flatMap String.utf8EncodeChar).toArray⟩ : ByteArray) =
          (String.utf8EncodeChar c).toByteArray ++ ⟨(cs.flatMap String.utf8EncodeChar).toArray⟩ := by
        apply ByteArray.ext
        simp
      rw [firstChar, hbytes, ByteArray.utf8DecodeChar?_utf8EncodeChar_append]
    have hne : String.utf8EncodeChar c ++ cs.flatMap String.utf8EncodeChar ≠ [] := by
      simp [String.utf8EncodeChar_ne_nil]
    rw [List.flatMap_cons, lossyChars, dif_neg hne, hfirst]
    simp only
    rw [List.drop_left' (String.length_utf8EncodeChar c), ih]

/-- **A text is converted to itself.** -/
theorem fromUtf8Lossy_utf8 (s : String) : fromUtf8Lossy (utf8 s) = s := by
  rw [fromUtf8Lossy, utf8_eq_flatMap, lossyChars_flatMap, String.ofList_toList]

-- One replacement for a byte that begins nothing, and one for the beginning of a character.
example : fromUtf8Lossy [97, 0xFF, 0xE2, 0x82, 98] = "a\uFFFD\uFFFDb" := by decide +kernel

end Mizzle.Lib
