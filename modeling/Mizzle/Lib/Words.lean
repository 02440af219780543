import Mathlib.Data.Nat.Bitwise
import Mathlib.Data.List.Basic

/-!
# Sets of numbers in 64-bit words

A list of words stands for a set of numbers: number `i` is bit `i % 64` of word `i / 64`. Bitwise
operations word by word, the setting of a bit, the counting of members below a bound, and the loop
that takes a word's set bits from the lowest on, each in terms of membership.
-/

namespace Mizzle.Lib

abbrev Word := BitVec 64

/-! ### One word -/

namespace Word

/-- The set bits in increasing order. -/
def bits (w : Word) : List Nat := (List.range 64).filter w.getLsbD

/-- The number of set bits. -/
def countOnes (w : Word) : Nat := w.cpop.toNat

theorem cpopNatRec_eq_countP (w : Word) (n : Nat) :
    w.cpopNatRec n 0 = (List.range n).countP w.getLsbD := by
  induction n with
  | zero => rfl
  | succ n ih =>
    rw [List.range_succ, List.countP_append, ← ih, BitVec.cpopNatRec, BitVec.cpopNatRec_eq, List.countP_singleton]
    cases w.getLsbD n <;> simp

theorem countOnes_eq (w : Word) : w.countOnes = (List.range 64).countP w.getLsbD := by
  rw [countOnes, BitVec.toNat_cpop, cpopNatRec_eq_countP]

theorem toNat_eq_of_ne_zero {w : Word} (h : w ≠ 0) :
    ∃ q, w.toNat = 2 ^ (w.ctz.toNat + 1) * q + 2 ^ w.ctz.toNat := by
  refine ⟨w.toNat / 2 ^ (w.ctz.toNat + 1), ?_⟩
  have hlow : w.toNat % 2 ^ (w.ctz.toNat + 1) = 2 ^ w.ctz.toNat := by
    refine Nat.eq_of_testBit_eq fun i => ?_
    rw [Nat.testBit_mod_two_pow, Nat.testBit_two_pow]
    rcases lt_trichotomy i w.ctz.toNat with hi | rfl | hi
    · have hbit := BitVec.getLsbD_false_of_lt_ctz hi
      rw [BitVec.getLsbD] at hbit
      simp [hbit, hi.ne']
    · have hbit := BitVec.getLsbD_true_ctz_of_ne_zero h
      rw [BitVec.getLsbD] at hbit
      simp [hbit]
    · simp [hi.ne, show ¬ i < w.ctz.toNat + 1 by omega]
  rw [← hlow, Nat.div_add_mod]

/-- **`w & (w - 1)` takes the lowest set bit away.** -/
theorem getLsbD_and_sub_one {w : Word} (h : w ≠ 0) (i : Nat) :
    (w &&& (w - 1)).getLsbD i = (w.getLsbD i && decide (i ≠ w.ctz.toNat)) := by
  obtain ⟨q, hq⟩ := toNat_eq_of_ne_zero h
  generalize w.ctz.toNat = k at hq ⊢
  have hpow : 0 < 2 ^ k := Nat.two_pow_pos k
  have hlt : 2 ^ k < 2 ^ (k + 1) := Nat.pow_lt_pow_right (by decide) (Nat.lt_succ_self k)
  have hsub : (w - 1).toNat = 2 ^ (k + 1) * q + (2 ^ k - 1) := by
    have hone : (1 : Word) ≤ w := by
      rw [BitVec.le_def, hq]
      simp only [BitVec.ofNat_eq_ofNat, BitVec.toNat_ofNat]
      omega
    rw [BitVec.toNat_sub_of_le hone, hq]
    simp only [BitVec.ofNat_eq_ofNat, BitVec.toNat_ofNat]
    omega
  rw [BitVec.getLsbD_and, BitVec.getLsbD, BitVec.getLsbD, hsub, hq, Nat.testBit_two_pow_mul_add _ hlt,
    Nat.testBit_two_pow_mul_add _ (by omega)]
  rcases lt_trichotomy i k with hi | rfl | hi
  · simp [show i < k + 1 by omega, hi.ne, hi.ne']
  · simp [Nat.testBit_two_pow_sub_one]
  · simp [show ¬ i < k + 1 by omega, hi.ne']

theorem and_sub_one_lt {w : Word} (h : w ≠ 0) : (w &&& (w - 1)).toNat < w.toNat := by
  obtain ⟨q, hq⟩ := toNat_eq_of_ne_zero h
  have hpow := Nat.two_pow_pos w.ctz.toNat
  have hone : (1 : Word) ≤ w := by
    rw [BitVec.le_def, hq]
    simp only [BitVec.ofNat_eq_ofNat, BitVec.toNat_ofNat]
    omega
  calc (w &&& (w - 1)).toNat ≤ (w - 1).toNat := by
        rw [BitVec.toNat_and]
        exact Nat.and_le_right
    _ < w.toNat := by
        rw [BitVec.toNat_sub_of_le hone]
        simp only [BitVec.ofNat_eq_ofNat, BitVec.toNat_ofNat]
        omega

/-- The loop that takes the lowest set bit until there is none; the body may end it. -/
def whileBits {σ : Type} (f : σ → Nat → Except σ σ) (w : Word) (s : σ) : Except σ σ :=
  if _h : w = 0 then .ok s
  else
    match f s w.ctz.toNat with
    | .error s => .error s
    | .ok s => whileBits f (w &&& (w - 1)) s
termination_by w.toNat
decreasing_by exact and_sub_one_lt _h

theorem bits_eq_cons {w : Word} (h : w ≠ 0) : w.bits = w.ctz.toNat :: (w &&& (w - 1)).bits := by
  have hclear := getLsbD_and_sub_one h
  have hlow := fun i => @BitVec.getLsbD_false_of_lt_ctz _ i w
  have htrue := BitVec.getLsbD_true_ctz_of_ne_zero h
  have hlt : w.ctz.toNat < 64 := by
    by_contra hge
    rw [BitVec.getLsbD_of_ge w _ (by omega)] at htrue
    exact absurd htrue (by decide)
  generalize w.ctz.toNat = k at hclear hlow htrue hlt
  have hrange : List.range 64 = List.range k ++ k :: (List.range (63 - k)).map (k + 1 + ·) := by
    have hsplit : 64 = k + (1 + (63 - k)) := by omega
    rw [hsplit, List.range_add, List.range_add]
    simp [Nat.add_assoc]
  have hbefore : (List.range k).filter w.getLsbD = [] := by
    simp only [List.filter_eq_nil_iff, List.mem_range]
    exact fun i hi => by simp [hlow i hi]
  have hbefore' : (List.range k).filter (w &&& (w - 1)).getLsbD = [] := by
    simp only [List.filter_eq_nil_iff, List.mem_range]
    exact fun i hi => by rw [hclear, hlow i hi]; exact Bool.false_ne_true
  have hafter : ((List.range (63 - k)).map (k + 1 + ·)).filter (w &&& (w - 1)).getLsbD =
      ((List.range (63 - k)).map (k + 1 + ·)).filter w.getLsbD := by
    refine List.filter_congr fun i hi => ?_
    obtain ⟨j, -, rfl⟩ := List.mem_map.mp hi
    rw [hclear, decide_eq_true (by omega), Bool.and_true]
  rw [bits, bits, hrange, List.filter_append, List.filter_append, hbefore, hbefore', List.filter_cons_of_pos htrue,
    List.filter_cons_of_neg (by rw [hclear]; simp), hafter]
  rfl

/-- **The loop goes through the set bits in increasing order.** -/
theorem whileBits_eq {σ : Type} (f : σ → Nat → Except σ σ) (w : Word) (s : σ) :
    whileBits f w s = w.bits.foldlM f s := by
  induction w, s using whileBits.induct (f := f) with
  | case1 s =>
    rw [whileBits, dif_pos rfl, bits]
    simp
    rfl
  | case2 w s h s' hstop =>
    rw [whileBits, dif_neg h, hstop, bits_eq_cons h, List.foldlM_cons, hstop]
    rfl
  | case3 w s h s' hgo ih =>
    rw [whileBits, dif_neg h, hgo, bits_eq_cons h, List.foldlM_cons, hgo]
    exact ih

end Word

/-! ### Lists of words -/

namespace Words

def test (ws : List Word) (i : Nat) : Bool := (ws.getD (i / 64) 0).getLsbD (i % 64)

theorem test_of_length_le {ws : List Word} {i : Nat} (h : ws.length ≤ i / 64) :
    test ws i = false := by
  rw [test, List.getD_eq_default _ _ h]
  simp

theorem test_cons_of_lt (w : Word) (ws : List Word) {i : Nat} (h : i < 64) :
    test (w :: ws) i = w.getLsbD i := by
  rw [test, Nat.div_eq_of_lt h, Nat.mod_eq_of_lt h]
  rfl

theorem test_cons_add (w : Word) (ws : List Word) (i : Nat) :
    test (w :: ws) (64 + i) = test ws i := by
  rw [test, Nat.add_div_left i (by decide), Nat.add_mod_left]
  rfl

@[simp] theorem test_replicate_zero (n i : Nat) : test (List.replicate n 0) i = false := by
  rw [test, List.getD_eq_getElem?_getD, List.getElem?_replicate]
  split <;> simp

theorem test_append_zero (ws : List Word) (n i : Nat) :
    test (ws ++ List.replicate n 0) i = test ws i := by
  rcases Nat.lt_or_ge (i / 64) ws.length with h | h
  · rw [test, test, List.getD_append _ _ _ _ h]
  · rw [test_of_length_le h, test, List.getD_append_right _ _ _ _ h, List.getD_eq_getElem?_getD,
      List.getElem?_replicate]
    split <;> simp

/-- The operation on the words that both lists have, in the place of the first list. -/
def zipInto (f : Word → Word → Word) : List Word → List Word → List Word
  | a :: as, b :: bs => f a b :: zipInto f as bs
  | as, _ => as

@[simp] theorem length_zipInto (f : Word → Word → Word) (as bs : List Word) :
    (zipInto f as bs).length = as.length := by
  induction as generalizing bs with
  | nil => cases bs <;> rfl
  | cons a as ih =>
    cases bs with
    | nil => rfl
    | cons b bs => simp [zipInto, ih]

theorem test_zipInto {f : Word → Word → Word} {g : Bool → Bool → Bool}
    (hf : ∀ a b i, i < 64 → (f a b).getLsbD i = g (a.getLsbD i) (b.getLsbD i))
    (hg : ∀ x, g x false = x) {as bs : List Word}
    (hle : bs.length ≤ as.length ∨ ∀ y, g false y = false) (i : Nat) :
    test (zipInto f as bs) i = g (test as i) (test bs i) := by
  have hmod : i % 64 < 64 := Nat.mod_lt _ (by decide)
  have hword : ∀ n, ((zipInto f as bs).getD n 0).getLsbD (i % 64) =
      g ((as.getD n 0).getLsbD (i % 64)) ((bs.getD n 0).getLsbD (i % 64)) := by
    intro n
    induction as generalizing bs n with
    | nil =>
      rcases hle with hle | hle
      · rw [List.length_nil, Nat.le_zero, List.length_eq_zero_iff] at hle
        simp [hle, zipInto, hg]
      · simpa [zipInto] using (hle _).symm
    | cons a as ih =>
      cases bs with
      | nil => simp [zipInto, hg]
      | cons b bs =>
        cases n with
        | zero => simpa [zipInto] using hf a b _ hmod
        | succ n => simpa [zipInto] using @ih bs (hle.imp_left (by simp)) n
  exact hword (i / 64)

def setBit (ws : List Word) (i : Nat) : List Word := ws.modify (i / 64) (· ||| 1#64 <<< (i % 64))

@[simp] theorem length_setBit (ws : List Word) (i : Nat) : (setBit ws i).length = ws.length :=
  List.length_modify ..

theorem test_setBit (ws : List Word) (i j : Nat) :
    test (setBit ws i) j = (test ws j || decide (j = i ∧ i / 64 < ws.length)) := by
  have hmod : j % 64 < 64 := Nat.mod_lt _ (by decide)
  rw [test, test, setBit, List.getD_eq_getElem?_getD, List.getD_eq_getElem?_getD, List.getElem?_modify]
  rcases Nat.lt_or_ge (j / 64) ws.length with hlt | hge
  · rw [List.getElem?_eq_getElem hlt]
    by_cases hword : i / 64 = j / 64
    · have hiff : j = i ↔ j % 64 = i % 64 := by omega
      simp only [hword, ↓reduceIte, Option.map_eq_map, Option.map_some, Option.getD_some, BitVec.getLsbD_or,
        BitVec.getLsbD_shiftLeft, BitVec.getLsbD_one, hmod, hlt, hiff, and_true]
      congr 1
      rcases lt_trichotomy (j % 64) (i % 64) with h | h | h
      · simp [h, h.ne]
      · simp [h]
      · simp [h.ne', show ¬ j % 64 < i % 64 by omega, show j % 64 - i % 64 ≠ 0 by omega]
    · have hne : j ≠ i := fun heq => hword (heq ▸ rfl)
      simp [hword, hne]
  · rw [List.getElem?_eq_none hge]
    have hnone : ¬ (j = i ∧ i / 64 < ws.length) := fun ⟨heq, hlt⟩ => by omega
    simp [hnone]

/-! ### Counting -/

/-- The members below a bound: whole words, then the rest of one. -/
def countBelow (ws : List Word) (bound : Nat) : Nat :=
  ((ws.take (bound / 64)).map Word.countOnes).sum +
    if 0 < bound % 64 then
      match ws[bound / 64]? with
      | some w => (w &&& (1#64 <<< (bound % 64) - 1)).countOnes
      | none => 0
    else 0

theorem countP_range_add (p : Nat → Bool) (n m : Nat) :
    (List.range (n + m)).countP p = (List.range n).countP p + (List.range m).countP fun i =>
      p (n + i) := by
  rw [List.range_add, List.countP_append, List.countP_map]
  rfl

theorem sum_take_countOnes (ws : List Word) (q : Nat) :
    ((ws.take q).map Word.countOnes).sum = (List.range (64 * q)).countP (test ws) := by
  induction q generalizing ws with
  | zero => simp
  | succ q ih =>
    rw [Nat.mul_succ, Nat.add_comm (64 * q), countP_range_add]
    cases ws with
    | nil =>
      rw [← countP_range_add, List.take_nil]
      exact (List.countP_eq_zero.mpr fun i _ => by simp [test]).symm
    | cons w ws =>
      have hfirst : (List.range 64).countP (test (w :: ws)) = w.countOnes := by
        rw [Word.countOnes_eq]
        refine List.countP_congr fun i hi => ?_
        rw [test_cons_of_lt _ _ (List.mem_range.mp hi)]
      rw [List.take_succ_cons, List.map_cons, List.sum_cons, ih, hfirst]
      simp only [test_cons_add]

theorem getLsbD_mask {r : Nat} (hr : r < 64) (i : Nat) :
    (1#64 <<< r - 1).getLsbD i = decide (i < r) := by
  have hpow : 2 ^ r < 2 ^ 64 := Nat.pow_lt_pow_right (by decide) hr
  have hpos : 0 < 2 ^ r := Nat.two_pow_pos r
  have hshift : (1#64 <<< r).toNat = 2 ^ r := by
    rw [BitVec.toNat_shiftLeft, BitVec.toNat_ofNat, Nat.shiftLeft_eq,
      Nat.mod_eq_of_lt (by decide : 1 < 2 ^ 64), Nat.one_mul,
      Nat.mod_eq_of_lt hpow]
  have hone : 1#64 ≤ 1#64 <<< r := by
    rw [BitVec.le_def, hshift]
    exact hpos
  have hmask : (1#64 <<< r - 1#64).toNat = 2 ^ r - 1 := by
    rw [BitVec.toNat_sub_of_le hone, hshift]
    rfl
  rw [BitVec.getLsbD, ← Nat.testBit_two_pow_sub_one, ← hmask]
  rfl

theorem countOnes_mask (w : Word) {r : Nat} (hr : r < 64) :
    (w &&& (1#64 <<< r - 1)).countOnes = (List.range r).countP w.getLsbD := by
  have hsplit : List.range 64 = List.range (r + (64 - r)) := by rw [Nat.add_sub_cancel' hr.le]
  rw [Word.countOnes_eq, hsplit, countP_range_add]
  have hlow : (List.range r).countP (w &&& (1#64 <<< r - 1)).getLsbD = (List.range r).countP w.getLsbD := by
    refine List.countP_congr fun i hi => ?_
    rw [BitVec.getLsbD_and, getLsbD_mask hr, decide_eq_true (List.mem_range.mp hi), Bool.and_true]
  have hhigh : ((List.range (64 - r)).countP fun i => (w &&& (1#64 <<< r - 1)).getLsbD (r + i)) = 0 := by
    refine List.countP_eq_zero.mpr fun i _ => ?_
    rw [BitVec.getLsbD_and, getLsbD_mask hr]
    simp
  rw [hlow, hhigh, Nat.add_zero]

/-- **The count is that of the members below the bound.** -/
theorem countBelow_eq (ws : List Word) (bound : Nat) :
    countBelow ws bound = (List.range bound).countP (test ws) := by
  have hrem : bound % 64 < 64 := Nat.mod_lt _ (by decide)
  have hrest : (if 0 < bound % 64 then
      match ws[bound / 64]? with
      | some w => (w &&& (1#64 <<< (bound % 64) - 1)).countOnes
      | none => 0
    else 0) = (List.range (bound % 64)).countP fun i => test ws (64 * (bound / 64) + i) := by
    have htest : ∀ i ∈ List.range (bound % 64), test ws (64 * (bound / 64) + i) =
        (ws.getD (bound / 64) 0).getLsbD i := by
      intro i hi
      have hlt := (List.mem_range.mp hi).trans hrem
      rw [test, Nat.mul_add_div (by decide), Nat.div_eq_of_lt hlt, Nat.mul_add_mod, Nat.mod_eq_of_lt hlt, Nat.add_zero]
    rw [List.countP_congr fun i hi => by rw [htest i hi], List.getD_eq_getElem?_getD]
    split
    · cases ws[bound / 64]? with
      | none => exact (List.countP_eq_zero.mpr fun i _ => by simp).symm
      | some w => exact countOnes_mask w hrem
    · rw [show bound % 64 = 0 by omega]
      rfl
  rw [countBelow, sum_take_countOnes, hrest, ← countP_range_add, Nat.div_add_mod]

/-! ### Going through the members -/

theorem foldlM_words {σ ε : Type} (f : σ → Nat → Except ε σ) (ws : List Word) (k : Nat) (s : σ) :
    (ws.zipIdx k).foldlM (fun s p => p.1.bits.foldlM (fun s bit => f s (p.2 * 64 + bit)) s) s =
      ((List.range (64 * ws.length)).filter (test ws)).foldlM (fun s i => f s (k * 64 + i)) s := by
  induction ws generalizing k s with
  | nil => rfl
  | cons w ws ih =>
    have hfirst : (List.range 64).filter (test (w :: ws)) = w.bits :=
      List.filter_congr fun i hi => test_cons_of_lt _ _ (List.mem_range.mp hi)
    have hrest : (List.range (64 * ws.length)).filter (test (w :: ws) ∘ (64 + ·)) =
        (List.range (64 * ws.length)).filter (test ws) :=
      List.filter_congr fun i _ => test_cons_add _ _ _
    have hlength : 64 * (w :: ws).length = 64 + 64 * ws.length := by
      rw [List.length_cons]
      omega
    rw [List.zipIdx_cons, List.foldlM_cons, hlength, List.range_add, List.filter_append, List.foldlM_append, hfirst,
      List.filter_map, hrest]
    refine bind_congr fun s' => ?_
    rw [ih, List.foldlM_map]
    refine congrArg (fun g => List.foldlM g s' _) (funext fun s'' => funext fun i => ?_)
    rw [Nat.succ_mul, Nat.add_assoc]

end Words

end Mizzle.Lib
