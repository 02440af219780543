import Mizzle.Bitmap.PackBitmap

/-!
# Dense bitmaps refine sets

What `mizzle/src/bitmap.rs` computes with words is what it would compute with sets of positions
(`refinesSets`), for entries whose offsets stay inside the list and whatever the lengths of the
bitmaps are.

The set that a bitmap stands for says nothing about its length, and `for_each_set_bit` passes over
what is beyond the length. So there is an invariant beside it (`InRange`): no bitmap that is
decoded, united or taken a difference of has a member there.
-/

namespace Mizzle.Bitmap

open Lib

namespace DenseBitmap

/-! ### Members and the length -/

/-- Every member is below the length. -/
def InRange (b : DenseBitmap) : Prop := ∀ i ∈ b.toSet, i < b.numBits

variable {a b : DenseBitmap}

theorem inRange_new (n : Nat) : (new n).InRange := by
  intro i hi
  rw [toSet_new] at hi
  exact absurd hi (Set.notMem_empty i)

theorem inRange_fromEwah {ewah : Ewah} {hint : Nat}
    (h : ∀ bit ∈ ewah.bits, bit < max ewah.numBits hint) : (fromEwah ewah hint).InRange :=
  fun i hi => h i (mem_fromEwah.mp hi).1

theorem InRange.orWith (ha : a.InRange) (hb : b.InRange) : (a.orWith b).InRange := by
  intro i hi
  rw [toSet_orWith] at hi
  show i < (a.extendTo b.numBits).numBits
  rw [numBits_extendTo, lt_max_iff]
  exact hi.imp (ha i) (hb i)

theorem InRange.xorWith (ha : a.InRange) (hb : b.InRange) : (a.xorWith b).InRange := by
  intro i hi
  rw [toSet_xorWith, Set.mem_symmDiff] at hi
  show i < (a.extendTo b.numBits).numBits
  rw [numBits_extendTo, lt_max_iff]
  exact hi.imp (fun h => ha i h.1) fun h => hb i h.1

theorem InRange.andnotWith (ha : a.InRange) (b : DenseBitmap) : (a.andnotWith b).InRange := by
  intro i hi
  rw [toSet_andnotWith] at hi
  exact ha i hi.1

/-! ### Counting and visiting -/

theorem popcountInRange_eq_ncard (b : DenseBitmap) (n : Nat) :
    b.popcountInRange n = (b.toSet ∩ Set.Iio n).ncard := by
  have hset : b.toSet ∩ Set.Iio n = ↑((List.range n).filter b.test).toFinset := by
    ext i
    simp [mem_toSet, and_comm]
  rw [hset, Set.ncard_coe_finset, List.toFinset_card_of_nodup (List.nodup_range.filter _), popcountInRange_eq,
    List.countP_eq_length_filter]

theorem pairwise_members (b : DenseBitmap) : b.members.Pairwise (· < ·) :=
  List.pairwise_lt_range.filter _

theorem forEachSetBit_of_continue {σ : Type} (b : DenseBitmap) (g : σ → Nat → σ) (s : σ) :
    b.forEachSetBit (fun s i => .ok (g s i)) s = b.members.foldl g s := by
  have hloop : b.members.foldlM (fun s i => (.ok (g s i) : Except σ σ)) s =
    .ok (b.members.foldl g s) := List.foldlM_pure
  rw [forEachSetBit_eq, hloop]

end DenseBitmap

namespace PackBitmap

/-- Every offset stays inside the list, and every stored position is one of its bitmap or one of the
pack. -/
structure WellFormed (bm : PackBitmap) : Prop where
  offset : ∀ {i : Nat} {e : Entry}, bm.entries[i]? = some e → e.xorOffset.toNat ≤ i
  position : ∀ e ∈ bm.entries, ∀ bit ∈ e.ewah.bits, bit < max e.ewah.numBits bm.packObjectCount

/-- A cache that earlier calls have filled. -/
inductive Filled (bm : PackBitmap) : Cache → Prop
  | empty : Filled bm fun _ => none
  | call {cache cache' : Cache} {i : Nat} {b : DenseBitmap} (h : Filled bm cache)
    (hcall : bm.decodeEntry i cache = .ok (b, cache')) : Filled bm cache'

/-- The bitmaps that there are at run time. -/
inductive Built (bm : PackBitmap) : DenseBitmap → Prop
  | decoded {cache cache' : Cache} {i : Nat} {b : DenseBitmap} (hcache : bm.Filled cache)
    (h : bm.decodeEntry i cache = .ok (b, cache')) : Built bm b
  | union {oids : List ObjectId} {b : DenseBitmap} (h : bm.unionBitmap oids = .ok (some b)) : Built bm b
  | andnot {a b : DenseBitmap} (ha : Built bm a) (hb : Built bm b) : Built bm (a.andnotWith b)

/-- The operations, in terms of sets. -/
structure RefinesSets (bm : PackBitmap) : Prop where
  decode : ∀ {cache}, bm.Filled cache → ∀ {i}, i < bm.entries.length →
    ∃ b cache' es, bm.decodeEntry i cache = .ok (b, cache') ∧ Chain bm.entries i es ∧ b.toSet =
      difference Entry.bits es
  union : ∀ {oids : List ObjectId}, (∀ oid ∈ oids, ∃ i < bm.entries.length, bm.oidToEntry oid = some i) →
    ∃ b, bm.unionBitmap oids = .ok (some b) ∧ ∀ x, x ∈ b.toSet ↔
      ∃ oid ∈ oids, ∃ i es, bm.oidToEntry oid = some i ∧ Chain bm.entries i es ∧ x ∈ difference Entry.bits es
  andnot : ∀ a b : DenseBitmap, (a.andnotWith b).toSet = a.toSet \ b.toSet
  popcount : ∀ (b : DenseBitmap) (n : Nat), b.popcountInRange n = (b.toSet ∩ Set.Iio n).ncard
  visit : ∀ {b}, bm.Built b → ∃ visited : List Nat, visited.Pairwise (· < ·) ∧ (∀ i, i ∈ visited ↔ i ∈ b.toSet) ∧
    ∀ {σ : Type} (g : σ → Nat → σ) (s : σ), b.forEachSetBit (fun s i => .ok (g s i)) s = visited.foldl g s

namespace WellFormed

variable {bm : PackBitmap} (h : bm.WellFormed)

include h

theorem exists_chain {i : Nat} (hi : i < bm.entries.length) : ∃ es, Chain bm.entries i es := by
  induction i using Nat.strong_induction_on with
  | _ i ih =>
    have he : bm.entries[i]? = some bm.entries[i] := List.getElem?_eq_getElem hi
    by_cases hxor : bm.entries[i].xorOffset = 0
    · exact ⟨_, .base he hxor⟩
    · have hpos : bm.entries[i].xorOffset.toNat ≠ 0 := fun hzero => hxor (UInt8.toNat_inj.mp hzero)
      have hback := h.offset he
      obtain ⟨es, hes⟩ := ih (i - bm.entries[i].xorOffset.toNat) (by omega) (by omega)
      exact ⟨_, .step he hxor hback hes⟩

theorem resolves_of_chain {i : Nat} {es : List Entry} (hchain : Chain bm.entries i es) :
    Resolves bm.stored bm.entries i (difference Entry.bits es) :=
  Resolves.congr (fun e he => stored_eq_bits (h.position e he)) ⟨es, hchain, rfl⟩

theorem inRange_decodeEntry {cache cache' : Cache} {i : Nat} {b : DenseBitmap}
    (hcache : ∀ i b, cache i = some b → b.InRange)
    (hcall : bm.decodeEntry i cache = .ok (b, cache')) :
    b.InRange ∧ ∀ i b, cache' i = some b → b.InRange := by
  have hstored : ∀ {i : Nat} {e : Entry}, bm.entries[i]? = some e →
      (DenseBitmap.fromEwah e.ewah bm.packObjectCount).InRange :=
    fun he => DenseBitmap.inRange_fromEwah (h.position _ (List.mem_of_getElem? he))
  exact decodeEntry_rule (P := fun _ b => b.InRange) (fun i e he _ => hstored he)
    (fun i e base he _ _ hbase => (hstored he).xorWith hbase) hcache hcall

theorem of_filled {cache : Cache} (hcache : bm.Filled cache) :
    bm.CacheSound cache ∧ ∀ i b, cache i = some b → b.InRange := by
  induction hcache with
  | empty => exact ⟨cacheSound_empty, fun i b hcached => absurd hcached (Option.some_ne_none b).symm⟩
  | call _ hcall ih => exact ⟨(decodeEntry_spec ih.1 hcall).2, (h.inRange_decodeEntry ih.2 hcall).2⟩

theorem inRange_addEntries {entryIndices : List Nat} {state state' : Cache × DenseBitmap}
    (hcache : ∀ i b, state.1 i = some b → b.InRange) (hunion : state.2.InRange)
    (hloop : entryIndices.foldlM bm.addEntry state = .ok state') : state'.2.InRange := by
  induction entryIndices generalizing state with
  | nil => exact Except.ok.inj hloop ▸ hunion
  | cons i is ih =>
    rw [List.foldlM_cons] at hloop
    obtain ⟨middle, hfirst, hrest⟩ := bind_eq_ok_iff.mp hloop
    obtain ⟨⟨b, decoded⟩, hdecode, hmiddle⟩ := bind_eq_ok_iff.mp hfirst
    obtain rfl := Except.ok.inj hmiddle
    obtain ⟨hb, hdecoded⟩ := h.inRange_decodeEntry hcache hdecode
    exact @ih (decoded, state.2.orWith b) hdecoded (hunion.orWith hb) hrest

theorem inRange {b : DenseBitmap} (hbuilt : bm.Built b) : b.InRange := by
  induction hbuilt with
  | decoded hcache hcall => exact (h.inRange_decodeEntry (h.of_filled hcache).2 hcall).1
  | @union oids b hunion =>
    obtain ⟨is, his, -⟩ := unionBitmap_eq_some hunion
    rw [unionBitmap_of_some his] at hunion
    obtain ⟨state, hloop, hstate⟩ := map_eq_ok_iff.mp hunion
    rw [← Option.some.inj hstate]
    refine @inRange_addEntries bm h is
      (fun _ => none, .new bm.packObjectCount) state ?_ (DenseBitmap.inRange_new _) hloop
    exact fun i b hcached => absurd hcached (Option.some_ne_none b).symm
  | @andnot a b _ _ ha _ => exact ha.andnotWith b

theorem decode {cache : Cache} (hcache : bm.Filled cache) {i : Nat} (hi : i < bm.entries.length) :
    ∃ b cache' es, bm.decodeEntry i cache = .ok (b, cache') ∧ Chain bm.entries i es ∧ b.toSet =
      difference Entry.bits es := by
  obtain ⟨es, hes⟩ := h.exists_chain hi
  have hresolves := h.resolves_of_chain hes
  obtain ⟨b, cache', hcall⟩ := decodeEntry_of_resolves hresolves cache
  exact ⟨b, cache', es, hcall, hes, (decodeEntry_spec (h.of_filled hcache).1 hcall).1.unique hresolves⟩

theorem union {oids : List ObjectId}
    (hoids : ∀ oid ∈ oids, ∃ i < bm.entries.length, bm.oidToEntry oid = some i) :
    ∃ b, bm.unionBitmap oids = .ok (some b) ∧ ∀ x, x ∈ b.toSet ↔
      ∃ oid ∈ oids, ∃ i es, bm.oidToEntry oid = some i ∧ Chain bm.entries i es ∧ x ∈ difference Entry.bits es := by
  obtain ⟨is, his⟩ := mapM_option_of_forall fun oid hoid => (hoids oid hoid).imp fun _ hi => hi.2
  obtain ⟨hforth, hback⟩ := mapM_option_spec his
  -- the entries of the oids are in the list, so their chains resolve
  have hchain : ∀ i ∈ is, ∃ es, Chain bm.entries i es := by
    intro i hi
    obtain ⟨oid, hoid, hentry⟩ := hback i hi
    obtain ⟨j, hj, hentry'⟩ := hoids oid hoid
    rw [Option.some.inj (hentry.symm.trans hentry')]
    exact h.exists_chain hj
  obtain ⟨state, hloop⟩ := addEntries_of_resolves
    (fun i hi => (hchain i hi).elim fun es hes => ⟨_, h.resolves_of_chain hes⟩)
      (fun _ => none, .new bm.packObjectCount)
  have hunion : bm.unionBitmap oids = .ok (some state.2) := by
    rw [unionBitmap_of_some his, hloop]
    rfl
  have hset : state.2.toSet = bm.Union is := by
    rw [(addEntries_spec cacheSound_empty hloop).2, DenseBitmap.toSet_new, Set.empty_union]
  refine ⟨state.2, hunion, fun x => ?_⟩
  rw [hset]
  constructor
  · rintro ⟨i, hi, S, hS, hx⟩
    obtain ⟨oid, hoid, hentry⟩ := hback i hi
    obtain ⟨es, hes⟩ := hchain i hi
    rw [hS.unique (h.resolves_of_chain hes)] at hx
    exact ⟨oid, hoid, i, es, hentry, hes, hx⟩
  · rintro ⟨oid, hoid, i, es, hentry, hes, hx⟩
    obtain ⟨j, hj, hentry'⟩ := hforth oid hoid
    obtain rfl := Option.some.inj (hentry.symm.trans hentry')
    exact ⟨i, hj, _, h.resolves_of_chain hes, hx⟩

end WellFormed

/-- **The dense bitmaps refine sets.** -/
theorem refinesSets {bm : PackBitmap} (h : bm.WellFormed) : bm.RefinesSets where
  decode := h.decode
  union := h.union
  andnot := DenseBitmap.toSet_andnotWith
  popcount := DenseBitmap.popcountInRange_eq_ncard
  visit {b} hbuilt := by
    refine ⟨b.members, b.pairwise_members, fun i => ?_, b.forEachSetBit_of_continue⟩
    rw [DenseBitmap.mem_members]
    exact and_iff_right_of_imp (h.inRange hbuilt i)

/-- A pack of 66 objects; the first bitmap is longer than the pack, the second one is short and is
stored as a difference. -/
def unevenBitmap : PackBitmap :=
  parsed [] [⟨0, 0, ⟨70, [0, 3, 69]⟩⟩, ⟨1, 1, ⟨6, [3, 5]⟩⟩] 66

theorem wellFormed_unevenBitmap : unevenBitmap.WellFormed where
  offset {i e} he := by
    have hi : i < 2 := (List.getElem?_eq_some_iff.mp he).1
    interval_cases i
    · rw [← Option.some.inj he]
      decide
    · rw [← Option.some.inj he]
      decide
  position := by decide

theorem decode_unevenBitmap :
    ∃ b cache', unevenBitmap.decodeEntry 1 (fun _ => none) = .ok (b, cache') ∧
    ∀ x, x ∈ b.toSet ↔ x = 0 ∨ x = 5 ∨ x = 69 := by
  obtain ⟨b, cache', es, hcall, hchain, hset⟩ :=
    (refinesSets wellFormed_unevenBitmap).decode .empty (show 1 < 2 by decide)
  refine ⟨b, cache', hcall, fun x => ?_⟩
  have hes : es = unevenBitmap.entries.reverse := by
    cases hchain with
    | base he hxor =>
      rw [← Option.some.inj he] at hxor
      exact absurd hxor (by decide)
    | step he hxor hback h =>
      rw [← Option.some.inj he] at h ⊢
      cases h with
      | base he' _ =>
        rw [← Option.some.inj he']
        rfl
      | step he' hxor' _ _ =>
        rw [← Option.some.inj he'] at hxor'
        exact absurd rfl hxor'
  have hset : b.toSet = symmDiff {x | x ∈ [3, 5]} (symmDiff {x | x ∈ [0, 3, 69]} ∅) := by
    rw [hset, hes]
    rfl
  rw [hset]
  simp only [Set.mem_symmDiff, Set.mem_ofPred_eq, Set.mem_empty_iff_false, List.mem_cons, List.not_mem_nil, or_false,
    not_false_eq_true, and_true, false_and]
  omega

end PackBitmap

end Mizzle.Bitmap
