import Mizzle.Bitmap.Files
import Mizzle.Lib.Traverse
import Mizzle.Proto.Types

/-!
# Reachability bitmaps of a pack

`PackBitmap` of `mizzle/src/bitmap.rs`: an entry is a commit with the positions it reaches, stored
as the difference to an entry before it. `decode_entry` resolves these differences with a cache; an
offset that leads to before the first entry is a panic, as is a position for which the index has no
object. In these functions a panic is an error with its message.

`Resolves` says what the chain of an entry stands for, and the functions are described by it: they
answer exactly if every chain that they follow resolves, and then with the union of what the chains
stand for.
-/

namespace Mizzle.Bitmap

open Lib

/-- What is on disk for a pack. -/
structure PackFiles where
  /-- The oids of the index in its order, if it can be opened. -/
  index : Option (List ObjectId)
  bitmap : Option Bytes
  rev : Option Bytes
deriving DecidableEq

structure PackBitmap where
  offsetPosToIdxPos : List Nat
  offsetPosToOid : List (Option ObjectId)
  oidToEntry : ObjectId → Option Nat
  entries : List Entry
  packObjectCount : Nat

variable {index : List ObjectId} {b : DenseBitmap} {oids : List ObjectId} {values : List Nat}

namespace PackBitmap

/-- A bitmap as it comes from the files, without the lookup tables. -/
def parsed (offsetPosToIdxPos : List Nat) (entries : List Entry) (packObjectCount : Nat) :
    PackBitmap where
  offsetPosToIdxPos := offsetPosToIdxPos
  offsetPosToOid := List.replicate offsetPosToIdxPos.length none
  oidToEntry := fun _ => none
  entries := entries
  packObjectCount := packObjectCount

def load (decode : Bytes → Except String (Ewah × Bytes)) (files : PackFiles)
    (packObjectCount : Nat) : Except String (Option PackBitmap) :=
  match files.bitmap, files.rev with
  | some bitmapBytes, some revBytes => do
    let offsetPosToIdxPos ← parseRev revBytes packObjectCount
    let entries ← parseBitmap decode bitmapBytes
    return entries.map (parsed offsetPosToIdxPos · packObjectCount)
  | _, _ => .ok none

def indexEntry (oidAtIdxPos : Nat → Except String (Option ObjectId)) (table : ObjectId → Option Nat)
    (entry : Entry × Nat) : Except String (ObjectId → Option Nat) := do
  match ← oidAtIdxPos entry.1.idxPos with
  | some oid => return Function.update table oid (some entry.2)
  | none => return table

def buildOidIndex (bm : PackBitmap) (oidAtIdxPos : Nat → Except String (Option ObjectId)) :
    Except String PackBitmap := do
  let oidToEntry ← bm.entries.zipIdx.foldlM (indexEntry oidAtIdxPos) bm.oidToEntry
  let offsetPosToOid ← bm.offsetPosToIdxPos.mapM oidAtIdxPos
  return { bm with oidToEntry, offsetPosToOid }

abbrev Cache := Nat → Option DenseBitmap

def decodeEntry (bm : PackBitmap) (entryIdx : Nat) (cache : Cache) :
    Except String (DenseBitmap × Cache) :=
  match cache entryIdx with
  | some cached => .ok (cached, cache)
  | none =>
    match bm.entries[entryIdx]? with
    | none => .error "index out of bounds"
    | some entry =>
      let bitmap := DenseBitmap.fromEwah entry.ewah bm.packObjectCount
      if _hxor : entry.xorOffset = 0 then .ok (bitmap, Function.update cache entryIdx (some bitmap))
      else if _hpast : entryIdx < entry.xorOffset.toNat then .error "xor_offset points past start of entries"
      else
        match decodeEntry bm (entryIdx - entry.xorOffset.toNat) cache with
        | .error e => .error e
        | .ok (base, cache) => .ok (bitmap.xorWith base, Function.update cache entryIdx (some (bitmap.xorWith base)))
termination_by entryIdx
decreasing_by
  have hpos : entry.xorOffset.toNat ≠ 0 := fun h => _hxor (UInt8.toNat_inj.mp h)
  omega

/-- One round of the loop of `union_bitmap`. -/
def addEntry (bm : PackBitmap) (state : Cache × DenseBitmap) (entryIdx : Nat) :
    Except String (Cache × DenseBitmap) := do
  let (bitmap, decoded) ← bm.decodeEntry entryIdx state.1
  return (decoded, state.2.orWith bitmap)

/-- `union_bitmap`; nothing if an oid is not an entry. -/
def unionBitmap (bm : PackBitmap) (oids : List ObjectId) : Except String (Option DenseBitmap) :=
  match oids.mapM bm.oidToEntry with
  | none => .ok none
  | some entryIndices =>
    (entryIndices.foldlM bm.addEntry (fun _ => none, .new bm.packObjectCount)).map fun state => some state.2

/-- The callback of `have_reachable`. -/
def insertOid (bm : PackBitmap) (out : Finset ObjectId) (bitmapPos : Nat) :
    Except (Finset ObjectId) (Finset ObjectId) :=
  match bm.offsetPosToOid[bitmapPos]? with
  | some (some oid) => .ok (insert oid out)
  | _ => .error out

def haveReachable (bm : PackBitmap) (haves : List ObjectId) :
    Except String (Option (Finset ObjectId)) := do
  let union ← bm.unionBitmap haves
  return union.map fun union => union.forEachSetBit bm.insertOid ∅

/-- The rest of `covers_exactly`, once the wants are known to be entries. -/
def coversAll (bm : PackBitmap) (covered : DenseBitmap) : Bool :=
  covered.popcountInRange bm.packObjectCount == bm.packObjectCount

def coversExactly (bm : PackBitmap) (want haves : List ObjectId) : Except String (Option Bool) :=
  if want.isEmpty then .ok (some false)
  else do
    match ← bm.unionBitmap want with
    | none => return none
    | some covered =>
      if haves.isEmpty then return some (bm.coversAll covered)
      else
        match ← bm.unionBitmap haves with
        | none => return none
        | some haveBitmap => return some (bm.coversAll (covered.andnotWith haveBitmap))

/-! ### Chains of entries -/

/-- The entries along the chain of an entry. -/
inductive Chain (entries : List Entry) : Nat → List Entry → Prop
  | base {i : Nat} {e : Entry} (he : entries[i]? = some e) (hxor : e.xorOffset = 0) : Chain entries i [e]
  | step {i : Nat} {e : Entry} {es : List Entry} (he : entries[i]? = some e) (hxor : e.xorOffset ≠ 0)
    (hback : e.xorOffset.toNat ≤ i) (h : Chain entries (i - e.xorOffset.toNat) es) : Chain entries i (e :: es)

namespace Chain

variable {entries es es' : List Entry} {i : Nat}

theorem unique (h : Chain entries i es) (h' : Chain entries i es') : es = es' := by
  induction h generalizing es' with
  | base he hxor =>
    cases h' with
    | base he' _ => rw [Option.some.inj (he.symm.trans he')]
    | step he' hxor' _ _ => exact absurd (Option.some.inj (he.symm.trans he') ▸ hxor) hxor'
  | step he hxor _ _ ih =>
    cases h' with
    | base he' hxor' => exact absurd (Option.some.inj (he'.symm.trans he) ▸ hxor') hxor
    | step he' _ _ h' =>
      obtain rfl := Option.some.inj (he.symm.trans he')
      rw [ih h']

theorem subset (h : Chain entries i es) : es ⊆ entries := by
  induction h with
  | base he _ => exact List.cons_subset.mpr ⟨List.mem_of_getElem? he, List.nil_subset _⟩
  | step he _ _ _ ih => exact List.cons_subset.mpr ⟨List.mem_of_getElem? he, ih⟩

end Chain

def difference (stored : Entry → Set Nat) (es : List Entry) : Set Nat :=
  (es.map stored).foldr symmDiff ∅

/-- What an entry stands for: its own bits and, if it has an offset, those of another entry, where
they differ. -/
def Resolves (stored : Entry → Set Nat) (entries : List Entry) (i : Nat) (S : Set Nat) : Prop :=
  ∃ es, Chain entries i es ∧ S = difference stored es

namespace Resolves

variable {stored : Entry → Set Nat} {entries : List Entry} {i : Nat} {S T : Set Nat}

theorem base {e : Entry} (he : entries[i]? = some e) (hxor : e.xorOffset = 0) :
    Resolves stored entries i (stored e) :=
  ⟨[e], .base he hxor, (symmDiff_bot (stored e)).symm⟩

theorem step {e : Entry} (he : entries[i]? = some e) (hxor : e.xorOffset ≠ 0)
    (hback : e.xorOffset.toNat ≤ i) (h : Resolves stored entries (i - e.xorOffset.toNat) S) :
    Resolves stored entries i (symmDiff (stored e) S) := by
  obtain ⟨es, hchain, rfl⟩ := h
  exact ⟨e :: es, .step he hxor hback hchain, rfl⟩

theorem unique (h : Resolves stored entries i S) (h' : Resolves stored entries i T) : S = T := by
  obtain ⟨es, hchain, rfl⟩ := h
  obtain ⟨es', hchain', rfl⟩ := h'
  rw [hchain.unique hchain']

theorem congr {stored' : Entry → Set Nat} (hstored : ∀ e ∈ entries, stored' e = stored e)
    (h : Resolves stored entries i S) : Resolves stored' entries i S := by
  obtain ⟨es, hchain, rfl⟩ := h
  refine ⟨es, hchain, ?_⟩
  rw [difference, difference, List.map_congr_left fun e he => hstored e (hchain.subset he)]

end Resolves

/-- The bits of an entry that `from_ewah` keeps. -/
def stored (bm : PackBitmap) (e : Entry) : Set Nat :=
  (DenseBitmap.fromEwah e.ewah bm.packObjectCount).toSet

theorem stored_eq_bits {bm : PackBitmap} {e : Entry}
    (h : ∀ bit ∈ e.ewah.bits, bit < max e.ewah.numBits bm.packObjectCount) :
    bm.stored e = e.bits := by
  ext bit
  exact DenseBitmap.mem_fromEwah.trans ⟨And.left, fun hbit => ⟨hbit, div_lt_wordCount (h bit hbit)⟩⟩

/-- A cache that earlier calls have filled. -/
def CacheSound (bm : PackBitmap) (cache : Cache) : Prop :=
  ∀ i b, cache i = some b → Resolves bm.stored bm.entries i b.toSet

variable {bm : PackBitmap}

theorem cacheSound_empty : bm.CacheSound fun _ => none := fun _ _ h => nomatch h

theorem forall_update {P : Nat → DenseBitmap → Prop} {cache : Cache}
    (h : ∀ i b, cache i = some b → P i b) {i : Nat} (hb : P i b) :
    ∀ j b', Function.update cache i (some b) j = some b' → P j b' := by
  intro j b' hcached
  by_cases hj : j = i
  · subst hj
    rw [Function.update_self] at hcached
    exact Option.some.inj hcached ▸ hb
  · rw [Function.update_of_ne hj] at hcached
    exact h j b' hcached

theorem decodeEntry_rule {P : Nat → DenseBitmap → Prop}
    (hbase : ∀ i e, bm.entries[i]? = some e → e.xorOffset = 0 →
      P i (DenseBitmap.fromEwah e.ewah bm.packObjectCount))
    (hstep : ∀ i e base, bm.entries[i]? = some e → e.xorOffset ≠ 0 → e.xorOffset.toNat ≤ i → P (i -
      e.xorOffset.toNat) base → P i ((DenseBitmap.fromEwah e.ewah bm.packObjectCount).xorWith base))
    {entryIdx : Nat} {cache cache' : Cache} (hcache : ∀ i b, cache i = some b → P i b)
    (h : bm.decodeEntry entryIdx cache = .ok (b, cache')) :
    P entryIdx b ∧ ∀ i b, cache' i = some b → P i b := by
  induction entryIdx using Nat.strong_induction_on generalizing b cache' with
  | _ entryIdx ih =>
    rw [decodeEntry] at h
    split at h
    case h_1 cached hcached =>
      obtain ⟨rfl, rfl⟩ := Prod.mk.inj (Except.ok.inj h)
      exact ⟨hcache _ _ hcached, hcache⟩
    case h_2 =>
      split at h
      case h_1 => cases h
      case h_2 entry hentry =>
        simp only at h
        split at h
        case isTrue hxor =>
          obtain ⟨rfl, rfl⟩ := Prod.mk.inj (Except.ok.inj h)
          have hb := hbase entryIdx entry hentry hxor
          exact ⟨hb, forall_update hcache hb⟩
        case isFalse hxor =>
          split at h
          case isTrue => cases h
          case isFalse hback =>
            have hpos : entry.xorOffset.toNat ≠ 0 := fun hzero => hxor (UInt8.toNat_inj.mp hzero)
            split at h
            case h_1 => cases h
            case h_2 base middle hdecoded =>
              obtain ⟨rfl, rfl⟩ := Prod.mk.inj (Except.ok.inj h)
              obtain ⟨hbase, hmiddle⟩ := ih _ (by omega) hdecoded
              have hb := hstep entryIdx entry base hentry hxor (Nat.le_of_not_lt hback) hbase
              exact ⟨hb, forall_update hmiddle hb⟩

/-- **A decoded entry is what its chain stands for**, whatever is in the cache. -/
theorem decodeEntry_spec {entryIdx : Nat} {cache cache' : Cache} (hcache : bm.CacheSound cache)
    (h : bm.decodeEntry entryIdx cache = .ok (b, cache')) :
    Resolves bm.stored bm.entries entryIdx b.toSet ∧ bm.CacheSound cache' := by
  refine decodeEntry_rule (fun i e he hxor => .base he hxor) (fun i e base he hxor hback hbase => ?_) hcache h
  rw [DenseBitmap.toSet_xorWith]
  exact .step he hxor hback hbase

/-- **An entry is decoded if its chain resolves.** -/
theorem decodeEntry_of_resolves {entryIdx : Nat} {S : Set Nat}
    (h : Resolves bm.stored bm.entries entryIdx S) (cache : Cache) :
    ∃ b cache', bm.decodeEntry entryIdx cache = .ok (b, cache') := by
  obtain ⟨es, hchain, -⟩ := h
  induction hchain with
  | @base i e he hxor =>
    rw [decodeEntry]
    cases cache i with
    | some cached => exact ⟨_, _, rfl⟩
    | none =>
      rw [he]
      simp only [hxor, ↓reduceDIte]
      exact ⟨_, _, rfl⟩
  | @step i e es he hxor hback _ ih =>
    obtain ⟨base, cache', hbase⟩ := ih
    rw [decodeEntry]
    cases cache i with
    | some cached => exact ⟨_, _, rfl⟩
    | none =>
      rw [he]
      simp only [hxor, ↓reduceDIte, Nat.not_lt.mpr hback, hbase]
      exact ⟨_, _, rfl⟩

/-! ### Unions -/

/-- The union of what entries stand for. -/
def Union (bm : PackBitmap) (entryIndices : List Nat) : Set Nat :=
  {x | ∃ i ∈ entryIndices, ∃ S, Resolves bm.stored bm.entries i S ∧ x ∈ S}

theorem addEntries_spec {entryIndices : List Nat} {state state' : Cache × DenseBitmap}
    (hcache : bm.CacheSound state.1) (h : entryIndices.foldlM bm.addEntry state = .ok state') :
    (∀ i ∈ entryIndices, ∃ S, Resolves bm.stored bm.entries i S) ∧ state'.2.toSet =
      state.2.toSet ∪ bm.Union entryIndices := by
  induction entryIndices generalizing state with
  | nil =>
    obtain rfl := Except.ok.inj h
    simp [Union]
  | cons i is ih =>
    rw [List.foldlM_cons] at h
    obtain ⟨middle, hfirst, hrest⟩ := bind_eq_ok_iff.mp h
    obtain ⟨⟨b, decoded⟩, hdecode, hmiddle⟩ := bind_eq_ok_iff.mp hfirst
    obtain rfl := Except.ok.inj hmiddle
    obtain ⟨hb, hdecoded⟩ := decodeEntry_spec hcache hdecode
    obtain ⟨hall, hset⟩ := ih hdecoded hrest
    refine ⟨List.forall_mem_cons.mpr ⟨⟨_, hb⟩, hall⟩, ?_⟩
    rw [hset, DenseBitmap.toSet_orWith, Set.union_assoc]
    congr 1
    ext x
    simp only [Union, Set.mem_union, Set.mem_ofPred_eq, List.exists_mem_cons_iff]
    refine or_congr_left ⟨fun hx => ⟨_, hb, hx⟩, fun ⟨S, hS, hx⟩ => ?_⟩
    rwa [← hS.unique hb]

theorem le_numBits_addEntries {entryIndices : List Nat} {state state' : Cache × DenseBitmap}
    (h : entryIndices.foldlM bm.addEntry state = .ok state') :
    state.2.numBits ≤ state'.2.numBits := by
  induction entryIndices generalizing state with
  | nil => exact le_of_eq (congrArg (·.2.numBits) (Except.ok.inj h))
  | cons i is ih =>
    rw [List.foldlM_cons] at h
    obtain ⟨middle, hfirst, hrest⟩ := bind_eq_ok_iff.mp h
    obtain ⟨⟨b, decoded⟩, -, hmiddle⟩ := bind_eq_ok_iff.mp hfirst
    obtain rfl := Except.ok.inj hmiddle
    exact (DenseBitmap.le_numBits_orWith state.2 b).trans (ih hrest)

theorem addEntries_of_resolves {entryIndices : List Nat}
    (h : ∀ i ∈ entryIndices, ∃ S, Resolves bm.stored bm.entries i S) (state : Cache × DenseBitmap) :
    ∃ state', entryIndices.foldlM bm.addEntry state = .ok state' := by
  induction entryIndices generalizing state with
  | nil => exact ⟨state, rfl⟩
  | cons i is ih =>
    obtain ⟨⟨S, hS⟩, hrest⟩ := List.forall_mem_cons.mp h
    obtain ⟨b, decoded, hdecode⟩ := decodeEntry_of_resolves hS state.1
    obtain ⟨state', hstate'⟩ := ih hrest (decoded, state.2.orWith b)
    refine ⟨state', ?_⟩
    rw [List.foldlM_cons, addEntry, hdecode]
    exact hstate'

theorem unionBitmap_of_none (h : oids.mapM bm.oidToEntry = none) :
    bm.unionBitmap oids = .ok none := by
  rw [unionBitmap, h]

theorem unionBitmap_of_some {is : List Nat} (h : oids.mapM bm.oidToEntry = some is) :
    bm.unionBitmap oids =
      (is.foldlM bm.addEntry (fun _ => none, .new bm.packObjectCount)).map fun state => some state.2 := by
  rw [unionBitmap, h]

theorem unionBitmap_eq_some (h : bm.unionBitmap oids = .ok (some b)) :
    ∃ is, oids.mapM bm.oidToEntry = some is ∧ b.toSet = bm.Union is ∧
      bm.packObjectCount ≤ b.numBits := by
  cases hentries : oids.mapM bm.oidToEntry with
  | none =>
    rw [unionBitmap_of_none hentries] at h
    cases h
  | some is =>
    rw [unionBitmap_of_some hentries] at h
    obtain ⟨state, hloop, hstate⟩ := map_eq_ok_iff.mp h
    obtain ⟨-, hset⟩ := addEntries_spec cacheSound_empty hloop
    obtain rfl := Option.some.inj hstate
    exact ⟨is, rfl, by rw [hset, DenseBitmap.toSet_new, Set.empty_union], le_numBits_addEntries hloop⟩

/-- **When the union is computed**: some oid is not an entry, or all chains resolve. -/
theorem unionBitmap_ok_iff : (∃ answer, bm.unionBitmap oids = .ok answer) ↔
      ∀ is, oids.mapM bm.oidToEntry = some is → ∀ i ∈ is, ∃ S, Resolves bm.stored bm.entries i S := by
  cases hentries : oids.mapM bm.oidToEntry with
  | none => exact iff_of_true ⟨none, unionBitmap_of_none hentries⟩ nofun
  | some is =>
    rw [unionBitmap_of_some hentries]
    constructor
    · rintro ⟨answer, hanswer⟩ is' his'
      obtain ⟨state, hloop, -⟩ := map_eq_ok_iff.mp hanswer
      exact Option.some.inj his' ▸ (addEntries_spec cacheSound_empty hloop).1
    · intro hall
      obtain ⟨state, hloop⟩ := addEntries_of_resolves (hall is rfl) (fun _ => none, .new bm.packObjectCount)
      exact ⟨some state.2, map_eq_ok_iff.mpr ⟨state, hloop, rfl⟩⟩

/-! ### The lookup tables -/

/-- `oid_at_index` of the index file, which panics at or above the number of objects. -/
def oidAtIndex (index : List ObjectId) (pos : Nat) : Except String (Option ObjectId) :=
  match index[pos]? with
  | some oid => .ok (some oid)
  | none => .error "index out of bounds"

theorem oidAtIndex_of_lt {pos : Nat} (h : pos < index.length) :
    oidAtIndex index pos = .ok index[pos]? := by
  rw [oidAtIndex, List.getElem?_eq_getElem h]

theorem lt_of_oidAtIndex {pos : Nat} {oid : Option ObjectId} (h : oidAtIndex index pos = .ok oid) :
    pos < index.length := by
  by_contra hge
  rw [oidAtIndex, List.getElem?_eq_none (Nat.le_of_not_lt hge)] at h
  cases h

/-- The entry of an oid: the last one at its position. -/
def LastEntry (index : List ObjectId) (entries : List Entry) (oid : ObjectId) (i : Nat) : Prop :=
  (∃ e, entries[i]? = some e ∧ index[e.idxPos]? = some oid) ∧
    ∀ j e, i < j → entries[j]? = some e → index[e.idxPos]? ≠ some oid

theorem lastEntry_concat {entries : List Entry} {e : Entry} {oid : ObjectId} {i : Nat} :
    LastEntry index (entries ++ [e]) oid i ↔
      if index[e.idxPos]? = some oid then i = entries.length else LastEntry index entries oid i := by
  have hlast : (entries ++ [e])[entries.length]? = some e := List.getElem?_concat_length
  split
  case isTrue he =>
    constructor
    · rintro ⟨⟨e', he', -⟩, hafter⟩
      have hlt := (List.getElem?_eq_some_iff.mp he').1
      rw [List.length_append, List.length_singleton] at hlt
      by_contra hne
      exact hafter entries.length e (by omega) hlast he
    · rintro rfl
      refine ⟨⟨e, hlast, he⟩, fun j e' hj he' => ?_⟩
      have hlt := (List.getElem?_eq_some_iff.mp he').1
      rw [List.length_append, List.length_singleton] at hlt
      omega
  case isFalse he =>
    have hbefore : ∀ {j}, j < entries.length → (entries ++ [e])[j]? = entries[j]? :=
      fun hj => List.getElem?_append_left hj
    constructor
    · rintro ⟨⟨e', he', hoid⟩, hafter⟩
      have hi : i < entries.length := by
        have hlt := (List.getElem?_eq_some_iff.mp he').1
        rw [List.length_append, List.length_singleton] at hlt
        by_contra hge
        obtain rfl : i = entries.length := by omega
        exact he (Option.some.inj (hlast.symm.trans he') ▸ hoid)
      refine ⟨⟨e', (hbefore hi).symm.trans he', hoid⟩, fun j e'' hj he'' => ?_⟩
      exact hafter j e'' hj ((hbefore (List.getElem?_eq_some_iff.mp he'').1).trans he'')
    · rintro ⟨⟨e', he', hoid⟩, hafter⟩
      refine ⟨⟨e', (hbefore (List.getElem?_eq_some_iff.mp he').1).trans he', hoid⟩, fun j e'' hj he'' => ?_⟩
      rcases Nat.lt_or_ge j entries.length with hlt | hge
      · exact hafter j e'' hj ((hbefore hlt).symm.trans he'')
      · have hlt := (List.getElem?_eq_some_iff.mp he'').1
        rw [List.length_append, List.length_singleton] at hlt
        obtain rfl : j = entries.length := by omega
        obtain rfl := Option.some.inj (hlast.symm.trans he'')
        exact he

theorem indexEntries_concat (index : List ObjectId) (entries : List Entry) (e : Entry)
    (table : ObjectId → Option Nat) :
    (entries ++ [e]).zipIdx.foldlM (indexEntry (oidAtIndex index)) table =
      (entries.zipIdx.foldlM (indexEntry (oidAtIndex index)) table >>= fun t =>
        indexEntry (oidAtIndex index) t (e, entries.length)) := by
  rw [List.zipIdx_append, List.foldlM_append]
  simp only [Nat.zero_add, List.zipIdx_singleton, List.foldlM_cons, List.foldlM_nil, bind_pure]

theorem indexEntries_spec {entries : List Entry} {table : ObjectId → Option Nat}
    (h : entries.zipIdx.foldlM (indexEntry (oidAtIndex index)) (fun _ => none) = .ok table) :
    (∀ e ∈ entries, e.idxPos < index.length) ∧ ∀ oid i, table oid = some i ↔
      LastEntry index entries oid i := by
  induction entries using List.reverseRecOn generalizing table with
  | nil =>
    obtain rfl := Except.ok.inj h
    simp [LastEntry]
  | append_singleton entries e ih =>
    rw [indexEntries_concat] at h
    obtain ⟨middle, hmiddle, h⟩ := bind_eq_ok_iff.mp h
    obtain ⟨hpos, htable⟩ := ih hmiddle
    obtain ⟨oid, hoid, h⟩ := bind_eq_ok_iff.mp h
    have hlt := lt_of_oidAtIndex hoid
    rw [oidAtIndex_of_lt hlt, Except.ok.injEq] at hoid
    refine ⟨fun e' he' => ?_, fun x i => ?_⟩
    · rcases List.mem_append.mp he' with he' | he'
      · exact hpos e' he'
      · rwa [List.mem_singleton.mp he']
    · rw [List.getElem?_eq_getElem hlt] at hoid
      subst hoid
      obtain rfl := Except.ok.inj h
      rw [lastEntry_concat, List.getElem?_eq_getElem hlt]
      by_cases hx : x = index[e.idxPos]
      · subst hx
        rw [Function.update_self, if_pos rfl, Option.some.injEq, eq_comm]
      · rw [Function.update_of_ne hx, if_neg fun heq => hx (Option.some.inj heq).symm]
        exact htable x i

theorem indexEntries_of_lt {entries : List Entry} (h : ∀ e ∈ entries, e.idxPos < index.length) :
    ∃ table, entries.zipIdx.foldlM (indexEntry (oidAtIndex index)) (fun _ => none) = .ok table := by
  induction entries using List.reverseRecOn with
  | nil => exact ⟨_, rfl⟩
  | append_singleton entries e ih =>
    obtain ⟨middle, hmiddle⟩ := ih fun e' he' => h e' (List.mem_append_left _ he')
    have hlt := h e (List.mem_append_right _ List.mem_cons_self)
    refine ⟨Function.update middle index[e.idxPos] (some entries.length), ?_⟩
    rw [indexEntries_concat]
    refine bind_eq_ok_iff.mpr ⟨middle, hmiddle, bind_eq_ok_iff.mpr ⟨some index[e.idxPos], ?_, rfl⟩⟩
    rw [oidAtIndex_of_lt hlt, List.getElem?_eq_getElem hlt]

theorem mapM_oidAtIndex_of_lt (h : ∀ v ∈ values, v < index.length) :
    values.mapM (oidAtIndex index) = .ok (values.map (index[·]?)) := by
  induction values with
  | nil => rfl
  | cons v values ih =>
    obtain ⟨hv, hvalues⟩ := List.forall_mem_cons.mp h
    rw [List.mapM_cons, oidAtIndex_of_lt hv]
    exact bind_eq_ok_iff.mpr ⟨_, rfl, bind_eq_ok_iff.mpr ⟨_, ih hvalues, rfl⟩⟩

theorem lt_of_mapM_oidAtIndex {oids : List (Option ObjectId)}
    (h : values.mapM (oidAtIndex index) = .ok oids) : ∀ v ∈ values, v < index.length := by
  induction values generalizing oids with
  | nil => exact List.forall_mem_nil _
  | cons v values ih =>
    rw [List.mapM_cons] at h
    obtain ⟨oid, hoid, h⟩ := bind_eq_ok_iff.mp h
    obtain ⟨rest, hrest, -⟩ := bind_eq_ok_iff.mp h
    exact List.forall_mem_cons.mpr ⟨lt_of_oidAtIndex hoid, ih hrest⟩

/-- A bitmap with its lookup tables. -/
structure Indexed (index : List ObjectId) (values : List Nat) (entries : List Entry)
    (bm : PackBitmap) : Prop where
  entries_eq : bm.entries = entries
  count_eq : bm.packObjectCount = index.length
  oids_eq : bm.offsetPosToOid = values.map (index[·]?)
  table : ∀ oid i, bm.oidToEntry oid = some i ↔ LastEntry index entries oid i

theorem buildOidIndex_spec {entries : List Entry} {bm : PackBitmap}
    (h : (parsed values entries index.length).buildOidIndex (oidAtIndex index) = .ok bm) :
    Indexed index values entries bm := by
  obtain ⟨table, htable, h⟩ := bind_eq_ok_iff.mp h
  obtain ⟨oids, hoids, h⟩ := bind_eq_ok_iff.mp h
  obtain rfl := Except.ok.inj h
  have hmap := mapM_oidAtIndex_of_lt (lt_of_mapM_oidAtIndex hoids)
  exact ⟨rfl, rfl, Except.ok.inj (hoids.symm.trans hmap), (indexEntries_spec htable).2⟩

/-- **The tables are built exactly if every position is one of the index.** -/
theorem buildOidIndex_ok_iff {entries : List Entry} :
    (∃ bm, (parsed values entries index.length).buildOidIndex (oidAtIndex index) = .ok bm) ↔
      (∀ v ∈ values, v < index.length) ∧ ∀ e ∈ entries, e.idxPos < index.length := by
  constructor
  · rintro ⟨bm, h⟩
    obtain ⟨table, htable, h⟩ := bind_eq_ok_iff.mp h
    obtain ⟨oids, hoids, -⟩ := bind_eq_ok_iff.mp h
    exact ⟨lt_of_mapM_oidAtIndex hoids, (indexEntries_spec htable).1⟩
  · rintro ⟨hvalues, hentries⟩
    obtain ⟨table, htable⟩ := indexEntries_of_lt hentries
    exact ⟨_, bind_eq_ok_iff.mpr ⟨table, htable, bind_eq_ok_iff.mpr ⟨_, mapM_oidAtIndex_of_lt hvalues, rfl⟩⟩⟩

end PackBitmap

end Mizzle.Bitmap
