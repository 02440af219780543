import Mathlib
import Mizzle.Lib.Words

/-!
# Dense bitmaps

`DenseBitmap` of `mizzle/src/bitmap.rs`: a set of positions in a pack, as packed 64-bit words.
Bitmaps of different lengths are combined after the shorter one has been extended; a bitmap always
has the words that its length asks for, which is what makes the operations on the common words those
on the sets.
-/

namespace Mizzle.Bitmap

open Lib

/-- A decoded EWAH bitmap: its length, and the positions that `for_each_set_bit` visits. -/
structure Ewah where
  numBits : Nat
  bits : List Nat
deriving DecidableEq

/-- `num_bits.div_ceil(64)`. -/
def wordCount (numBits : Nat) : Nat := (numBits + 63) / 64

theorem wordCount_mono {n m : Nat} (h : n ≤ m) : wordCount n ≤ wordCount m :=
  Nat.div_le_div_right (Nat.add_le_add_right h 63)

theorem le_wordCount (n : Nat) : n ≤ 64 * wordCount n := by
  unfold wordCount
  omega

theorem div_lt_wordCount {i n : Nat} (h : i < n) : i / 64 < wordCount n := by
  unfold wordCount
  omega

structure DenseBitmap where
  words : List Word
  numBits : Nat
  length_words : words.length = wordCount numBits
deriving DecidableEq

namespace DenseBitmap

def new (numBits : Nat) : DenseBitmap :=
  ⟨List.replicate (wordCount numBits) 0, numBits, List.length_replicate⟩

theorem length_setBits (bits : List Nat) (ws : List Word) :
    (bits.foldl Words.setBit ws).length = ws.length := by
  induction bits generalizing ws with
  | nil => rfl
  | cons bit bits ih => rw [List.foldl_cons, ih, Words.length_setBit]

/-- `from_ewah`; a bit for which there is no word is dropped. -/
def fromEwah (ewah : Ewah) (numBitsHint : Nat) : DenseBitmap :=
  let out := new (max ewah.numBits numBitsHint)
  ⟨ewah.bits.foldl Words.setBit out.words, out.numBits, (length_setBits _ _).trans out.length_words⟩

def extendTo (b : DenseBitmap) (numBits : Nat) : DenseBitmap :=
  if h : b.numBits < numBits then
    ⟨b.words ++ List.replicate (wordCount numBits - b.words.length) 0, numBits, by
      have hlength := wordCount_mono h.le
      rw [List.length_append, List.length_replicate, b.length_words]
      omega⟩
  else b

/-- The loop over the words of both. -/
def zipWords (f : Word → Word → Word) (a b : DenseBitmap) : DenseBitmap :=
  ⟨Words.zipInto f a.words b.words, a.numBits, (Words.length_zipInto ..).trans a.length_words⟩

def orWith (a b : DenseBitmap) : DenseBitmap := (a.extendTo b.numBits).zipWords (· ||| ·) b

def xorWith (a b : DenseBitmap) : DenseBitmap := (a.extendTo b.numBits).zipWords (· ^^^ ·) b

def andnotWith (a b : DenseBitmap) : DenseBitmap := a.zipWords (· &&& ~~~ ·) b

def popcountInRange (b : DenseBitmap) (bound : Nat) : Nat := Words.countBelow b.words bound

/-- `for_each_set_bit`: the callback may end the loop. -/
def forEachSetBit {σ : Type} (b : DenseBitmap) (f : σ → Nat → Except σ σ) (s : σ) : σ :=
  let visit (s : σ) (i : Nat) : Except σ σ := if i < b.numBits then f s i else .ok s
  match b.words.zipIdx.foldlM (fun s word => Word.whileBits (fun s bit => visit s (word.2 * 64 + bit)) word.1 s) s with
  | .ok s | .error s => s

/-! ### Sets of positions -/

def test (b : DenseBitmap) (i : Nat) : Bool := Words.test b.words i

/-- The set that the bitmap stands for. -/
def toSet (b : DenseBitmap) : Set Nat := {i | b.test i = true}

theorem mem_toSet {b : DenseBitmap} {i : Nat} : i ∈ b.toSet ↔ b.test i = true := Iff.rfl

@[simp] theorem toSet_new (n : Nat) : (new n).toSet = ∅ := by
  ext i
  rw [mem_toSet, test, new, Words.test_replicate_zero]
  simp

theorem test_setBits (bits : List Nat) (ws : List Word) (i : Nat) :
    Words.test (bits.foldl Words.setBit ws) i =
      (Words.test ws i || decide (i ∈ bits ∧ i / 64 < ws.length)) := by
  induction bits generalizing ws with
  | nil => simp
  | cons bit bits ih =>
    rw [List.foldl_cons, ih, Words.test_setBit, Words.length_setBit, Bool.or_assoc, ← Bool.decide_or]
    congr 2
    rw [List.mem_cons, or_and_right]
    exact propext (or_congr_left ⟨fun ⟨heq, hlt⟩ => ⟨heq, heq ▸ hlt⟩, fun ⟨heq, hlt⟩ => ⟨heq, heq ▸ hlt⟩⟩)

theorem mem_fromEwah {ewah : Ewah} {hint i : Nat} :
    i ∈ (fromEwah ewah hint).toSet ↔ i ∈ ewah.bits ∧
      i / 64 < wordCount (max ewah.numBits hint) := by
  rw [mem_toSet, test, fromEwah, test_setBits, new, Words.test_replicate_zero, List.length_replicate, Bool.false_or,
    decide_eq_true_eq]

@[simp] theorem test_extendTo (b : DenseBitmap) (n i : Nat) : (b.extendTo n).test i = b.test i := by
  unfold extendTo
  split
  · exact Words.test_append_zero ..
  · rfl

theorem numBits_extendTo (b : DenseBitmap) (n : Nat) :
    (b.extendTo n).numBits = max b.numBits n := by
  unfold extendTo
  split
  · rename_i h
    exact (max_eq_right h.le).symm
  · rename_i h
    exact (max_eq_left (Nat.le_of_not_lt h)).symm

theorem length_le_extendTo (a b : DenseBitmap) :
    b.words.length ≤ (a.extendTo b.numBits).words.length := by
  rw [b.length_words, (a.extendTo b.numBits).length_words, numBits_extendTo]
  exact wordCount_mono (le_max_right _ _)

theorem le_numBits_orWith (a b : DenseBitmap) : a.numBits ≤ (a.orWith b).numBits :=
  (le_max_left _ _).trans_eq (numBits_extendTo a b.numBits).symm

/-- **Union.** -/
@[simp] theorem toSet_orWith (a b : DenseBitmap) : (a.orWith b).toSet = a.toSet ∪ b.toSet := by
  ext i
  have htest : (a.orWith b).test i = ((a.extendTo b.numBits).test i || b.test i) :=
    Words.test_zipInto (fun _ _ _ _ => BitVec.getLsbD_or) Bool.or_false (Or.inl (length_le_extendTo a b)) i
  rw [mem_toSet, htest, test_extendTo, Bool.or_eq_true]
  rfl

/-- **Symmetric difference.** -/
@[simp] theorem toSet_xorWith (a b : DenseBitmap) :
    (a.xorWith b).toSet = symmDiff a.toSet b.toSet := by
  ext i
  have htest : (a.xorWith b).test i = ((a.extendTo b.numBits).test i ^^ b.test i) :=
    Words.test_zipInto (fun _ _ _ _ => BitVec.getLsbD_xor) Bool.xor_false (Or.inl (length_le_extendTo a b)) i
  rw [mem_toSet, htest, test_extendTo, Set.mem_symmDiff, mem_toSet, mem_toSet]
  cases a.test i <;> cases b.test i <;> simp

/-- **Difference.** -/
@[simp] theorem toSet_andnotWith (a b : DenseBitmap) :
    (a.andnotWith b).toSet = a.toSet \ b.toSet := by
  ext i
  have hword : ∀ (v w : Word) (j : Nat), j < 64 →
      (v &&& ~~~w).getLsbD j = (v.getLsbD j && !w.getLsbD j) := fun v w j hj => by
    rw [BitVec.getLsbD_and, BitVec.getLsbD_not, decide_eq_true hj, Bool.true_and]
  have htest : (a.andnotWith b).test i = (a.test i && !b.test i) :=
    @Words.test_zipInto _ (fun x y => x && !y) hword (by simp) _ _ (Or.inr (by simp)) i
  rw [mem_toSet, htest, Set.mem_sdiff, mem_toSet, mem_toSet]
  simp

/-- **The number of members below a bound.** -/
theorem popcountInRange_eq (b : DenseBitmap) (bound : Nat) :
    b.popcountInRange bound = (List.range bound).countP b.test := Words.countBelow_eq b.words bound

theorem popcountInRange_eq_self_iff {b : DenseBitmap} {bound : Nat} :
    b.popcountInRange bound = bound ↔ ∀ i < bound, i ∈ b.toSet := by
  have hcount : (List.range bound).countP b.test = (List.range bound).length ↔
      ∀ i ∈ List.range bound, b.test i = true :=
    List.countP_eq_length
  simpa only [popcountInRange_eq, List.length_range, List.mem_range, mem_toSet] using hcount

/-- The members in increasing order. -/
def members (b : DenseBitmap) : List Nat := (List.range b.numBits).filter b.test

theorem mem_members {b : DenseBitmap} {i : Nat} : i ∈ b.members ↔ i < b.numBits ∧ i ∈ b.toSet := by
  rw [members, List.mem_filter, List.mem_range, mem_toSet]

/-- **The members are visited in increasing order**, until the callback ends the loop. -/
theorem forEachSetBit_eq {σ : Type} (b : DenseBitmap) (f : σ → Nat → Except σ σ) (s : σ) :
    b.forEachSetBit f s =
      match b.members.foldlM f s with
      | .ok s | .error s => s := by
  have hmembers : (List.range (64 * b.words.length)).filter (fun i =>
      b.test i && decide (i < b.numBits)) = b.members := by
    have hle : b.numBits ≤ 64 * b.words.length := b.length_words ▸ le_wordCount b.numBits
    obtain ⟨m, hm⟩ := Nat.exists_eq_add_of_le hle
    have hlow : (List.range b.numBits).filter (fun i => b.test i && decide (i < b.numBits)) = b.members :=
      List.filter_congr fun i hi => by rw [decide_eq_true (List.mem_range.mp hi), Bool.and_true]
    rw [hm, List.range_add, List.filter_append, hlow]
    simp [List.filter_map]
  rw [forEachSetBit]
  simp only [Word.whileBits_eq]
  rw [Words.foldlM_words (fun s i => if i < b.numBits then f s i else .ok s) b.words 0 s, ← hmembers,
    show Words.test b.words = b.test from rfl, List.foldlM_filter, List.foldlM_filter]
  simp [pure, Except.pure, ite_and]

end DenseBitmap

end Mizzle.Bitmap
