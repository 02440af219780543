import Mizzle.Bitmap.PackBitmap
import Mizzle.Pack.Fetch

/-!
# Bitmaps on the way of a fetch

`mizzle/src/pack_reuse.rs`, and `try_single_pack_bitmap` and the choice of `build_pack_sync` in
`mizzle/src/backend/fs_gitoxide.rs`: a pack that a bitmap shows to be what is asked for is sent as
it is, and a have set may come from a bitmap. Both are meant to give way to the walk when the bitmap
is of no use.

They do not always: `pack_is_exactly_reusable` passes the errors of the parsers on, so that a
`.bitmap` of another version makes the fetch fail, and a position or an offset that is out of bounds
is a panic. `bitmap_harmless_iff` says for which files a request gets past both.
-/

namespace Mizzle.Bitmap

open Lib Pack

/-- How a call fails. -/
inductive Fault where
  | panic (message : String)
  | error (message : String)
deriving DecidableEq

section Decode

variable (decode : Bytes → Except String (Ewah × Bytes))

/-- `pack_is_exactly_reusable`, with the index open. -/
def reusableWith (index : List ObjectId) (files : PackFiles) (want haves : List ObjectId) :
    Except Fault Bool := do
  match ← (PackBitmap.load decode files index.length).mapError .error with
  | none => return false
  | some bitmap =>
    let bitmap ← (bitmap.buildOidIndex (PackBitmap.oidAtIndex index)).mapError .panic
    let covers ← (bitmap.coversExactly want haves).mapError .panic
    return covers.getD false

def packIsExactlyReusable (files : PackFiles) (want haves : List ObjectId) : Except Fault Bool :=
  match files.index with
  | none => .ok false
  | some index => reusableWith decode index files want haves

/-- The loop of `find_reusable_pack`. -/
def firstReusable (want haves : List ObjectId) : List PackFiles → Except Fault (Option PackFiles)
  | [] => .ok none
  | files :: packs => do
    if ← packIsExactlyReusable decode files want haves then return some files
    else firstReusable want haves packs

/-- `find_reusable_pack`, over the packs of the directory. -/
def findReusablePack (packs : List PackFiles) (want haves : List ObjectId) :
    Except Fault (Option PackFiles) :=
  if want.isEmpty then .ok none else firstReusable decode want haves packs

/-- `try_single_pack_bitmap`, with the index open. An error of the parsers is no answer. -/
def bitmapWith (index : List ObjectId) (files : PackFiles) (haves : List ObjectId) :
    Except Fault (Option (Finset ObjectId)) :=
  match PackBitmap.load decode files index.length with
  | .ok (some bitmap) => do
    let bitmap ← (bitmap.buildOidIndex (PackBitmap.oidAtIndex index)).mapError .panic
    (bitmap.haveReachable haves).mapError .panic
  | _ => .ok none

def trySinglePackBitmap (files : PackFiles) (haves : List ObjectId) :
    Except Fault (Option (Finset ObjectId)) :=
  match files.index with
  | none => .ok none
  | some index => bitmapWith decode index files haves

/-- The loop of `try_bitmap_have_set`. -/
def firstBitmap (haves : List ObjectId) : List PackFiles → Except Fault (Option (Finset ObjectId))
  | [] => .ok none
  | files :: packs => do
    match ← trySinglePackBitmap decode files haves with
    | some set => return some set
    | none => firstBitmap haves packs

def tryBitmapHaveSet (packs : List PackFiles) (haves : List ObjectId) :
    Except Fault (Option (Finset ObjectId)) :=
  if haves.isEmpty then .ok (some ∅) else firstBitmap decode haves packs

/-- How `build_pack_sync` answers: with a pack as it is, or with what the walk selects, given a have
set or not. -/
inductive Plan where
  | asIs (files : PackFiles)
  | withHaveSet (haveSet : Finset ObjectId)
  | walk
deriving DecidableEq

/-- The have set of the plan. -/
def planWalk (packs : List PackFiles) (haves : List ObjectId) : Except Fault Plan := do
  match ← tryBitmapHaveSet decode packs haves with
  | some haveSet => return .withHaveSet haveSet
  | none => return .walk

/-- The choice of `build_pack_sync`. -/
def plan (packs : List PackFiles) (want haves : List ObjectId) (opts : PackOptions) :
    Except Fault Plan :=
  if opts.deepen.isNone && opts.filter.isNone && !opts.thinPack then do
    match ← findReusablePack decode packs want haves with
    | some files => return .asIs files
    | none => planWalk decode packs haves
  else planWalk decode packs haves

end Decode

/-! ### Which files are harmless -/

/-- The offsets of the entry and of those it leads to stay within the list. -/
def ChainEnds (entries : List Entry) (i : Nat) : Prop := ∃ es, PackBitmap.Chain entries i es

theorem chainEnds_iff {stored : Entry → Set Nat} {entries : List Entry} {i : Nat} :
    ChainEnds entries i ↔ ∃ S, PackBitmap.Resolves stored entries i S :=
  ⟨fun ⟨es, h⟩ => ⟨_, es, h, rfl⟩, fun ⟨_, es, h, _⟩ => ⟨es, h⟩⟩

/-- If all the oids are entries, then their chains end. -/
def ChainsEnd (index : List ObjectId) (entries : List Entry) (oids : List ObjectId) : Prop :=
  (∀ oid ∈ oids, ∃ i, PackBitmap.LastEntry index entries oid i) →
    ∀ oid ∈ oids, ∀ i, PackBitmap.LastEntry index entries oid i → ChainEnds entries i

section Indexed

open PackBitmap

variable {index : List ObjectId} {values : List Nat} {entries : List Entry} {bm : PackBitmap}

theorem unionBitmap_ok_iff_chainsEnd (h : Indexed index values entries bm) {oids : List ObjectId} :
    (∃ answer, bm.unionBitmap oids = .ok answer) ↔ ChainsEnd index entries oids := by
  rw [unionBitmap_ok_iff, h.entries_eq]
  constructor
  · intro hall hentries oid hoid i hi
    obtain ⟨is, his⟩ := mapM_option_of_forall fun x hx => by
      obtain ⟨j, hj⟩ := hentries x hx
      exact ⟨j, (h.table x j).mpr hj⟩
    obtain ⟨j, hj, hfound⟩ := (mapM_option_spec his).1 oid hoid
    obtain rfl : j = i := Option.some.inj (hfound.symm.trans ((h.table oid i).mpr hi))
    exact chainEnds_iff.mpr (hall is his j hj)
  · intro hends is his i hi
    obtain ⟨hforth, hback⟩ := mapM_option_spec his
    obtain ⟨oid, hoid, hfound⟩ := hback i hi
    refine chainEnds_iff.mp (hends (fun x hx => ?_) oid hoid i ((h.table oid i).mp hfound))
    obtain ⟨j, -, hj⟩ := hforth x hx
    exact ⟨j, (h.table x j).mp hj⟩

theorem haveReachable_ok_iff {haves : List ObjectId} :
    (∃ answer, bm.haveReachable haves = .ok answer) ↔ ∃ answer, bm.unionBitmap haves =
      .ok answer := by
  constructor
  · rintro ⟨answer, h⟩
    obtain ⟨union, hunion, -⟩ := bind_eq_ok_iff.mp h
    exact ⟨union, hunion⟩
  · rintro ⟨union, hunion⟩
    exact ⟨_, bind_eq_ok_iff.mpr ⟨union, hunion, rfl⟩⟩

theorem unionBitmap_of_coversExactly {want haves : List ObjectId} {answer : Option Bool}
    (h : bm.coversExactly want haves = .ok answer) :
    ∃ answer, bm.unionBitmap want = .ok answer := by
  rw [coversExactly] at h
  split at h
  case isTrue hempty =>
    obtain rfl := List.isEmpty_iff.mp hempty
    exact ⟨_, rfl⟩
  case isFalse =>
    obtain ⟨union, hunion, -⟩ := bind_eq_ok_iff.mp h
    exact ⟨union, hunion⟩

theorem coversExactly_of_unionBitmap {want haves : List ObjectId}
    (hwant : ∃ answer, bm.unionBitmap want = .ok answer)
    (hhaves : ∃ answer, bm.unionBitmap haves = .ok answer) :
    ∃ answer, bm.coversExactly want haves = .ok answer := by
  obtain ⟨covered, hcovered⟩ := hwant
  obtain ⟨had, hhad⟩ := hhaves
  rw [coversExactly, hcovered, hhad]
  cases covered with
  | none => split <;> exact ⟨_, rfl⟩
  | some covered =>
    cases had with
    | none => repeat' (first | exact ⟨_, rfl⟩ | split)
    | some had => repeat' (first | exact ⟨_, rfl⟩ | split)

theorem both_ok_iff (h : Indexed index values entries bm) {want haves : List ObjectId} :
    ((∃ answer, bm.coversExactly want haves = .ok answer) ∧ ∃ answer,
      bm.haveReachable haves = .ok answer) ↔
      ChainsEnd index entries want ∧ ChainsEnd index entries haves := by
  rw [haveReachable_ok_iff, ← unionBitmap_ok_iff_chainsEnd h, ← unionBitmap_ok_iff_chainsEnd h]
  constructor
  · rintro ⟨⟨answer, hcovers⟩, hhaves⟩
    exact ⟨unionBitmap_of_coversExactly hcovers, hhaves⟩
  · rintro ⟨hwant, hhaves⟩
    exact ⟨coversExactly_of_unionBitmap hwant hhaves, hhaves⟩

end Indexed

section Files

open PackBitmap

variable {decode : Bytes → Except String (Ewah × Bytes)} {index : List ObjectId} {files : PackFiles}
  {want haves : List ObjectId}

/-- **What is loaded from which files.** -/
theorem load_eq_ok_iff {count : Nat} {answer : Option PackBitmap} :
    load decode files count = .ok answer ↔
      (files.bitmap = none ∨ files.rev = none) ∧ answer = none ∨
      ∃ bitmapBytes revBytes values, files.bitmap = some bitmapBytes ∧ files.rev = some revBytes ∧
        RevFile count values revBytes ∧
        (Unsupported bitmapBytes ∧ answer = none ∨
          ∃ entries, BitmapFile decode entries bitmapBytes ∧ answer = some (parsed values entries count)) := by
  rw [load]
  cases hbitmap : files.bitmap with
  | none => simp [eq_comm]
  | some bitmapBytes =>
    cases hrev : files.rev with
    | none => simp [eq_comm]
    | some revBytes =>
      simp only [reduceCtorEq, or_self, false_and, false_or, Option.some.injEq]
      constructor
      · intro h
        obtain ⟨values, hvalues, h⟩ := bind_eq_ok_iff.mp h
        obtain ⟨parse, hparse, h⟩ := bind_eq_ok_iff.mp h
        obtain rfl := Except.ok.inj h
        refine ⟨bitmapBytes, revBytes, values, rfl, rfl, parseRev_eq_ok_iff.mp hvalues, ?_⟩
        rcases parseBitmap_eq_ok_iff.mp hparse with ⟨hunsupported, rfl⟩ | ⟨entries, hentries, rfl⟩
        · exact Or.inl ⟨hunsupported, rfl⟩
        · exact Or.inr ⟨entries, hentries, rfl⟩
      · rintro ⟨_, _, values, rfl, rfl, hvalues, h⟩
        refine bind_eq_ok_iff.mpr ⟨values, parseRev_eq_ok_iff.mpr hvalues, ?_⟩
        rcases h with ⟨hunsupported, rfl⟩ | ⟨entries, hentries, rfl⟩
        · exact bind_eq_ok_iff.mpr ⟨none, parseBitmap_eq_ok_iff.mpr (Or.inl ⟨hunsupported, rfl⟩), rfl⟩
        · exact bind_eq_ok_iff.mpr ⟨some entries, parseBitmap_eq_ok_iff.mpr (Or.inr ⟨entries, hentries, rfl⟩), rfl⟩

theorem calls_ok_iff :
    ((∃ reusable, reusableWith decode index files want haves = .ok reusable) ∧
        ∃ set, bitmapWith decode index files haves = .ok set) ↔
      ∃ answer, load decode files index.length = .ok answer ∧ ∀ loaded, answer = some loaded →
        ∃ bm, loaded.buildOidIndex (oidAtIndex index) = .ok bm ∧
          (∃ covers, bm.coversExactly want haves = .ok covers) ∧ ∃ set, bm.haveReachable haves = .ok set := by
  constructor
  · rintro ⟨⟨reusable, hreusable⟩, set, hset⟩
    obtain ⟨answer, hload, hreusable⟩ := bind_eq_ok_iff.mp hreusable
    have hload := mapError_eq_ok_iff.mp hload
    refine ⟨answer, hload, ?_⟩
    rintro loaded rfl
    obtain ⟨bm, hbm, hreusable⟩ := bind_eq_ok_iff.mp hreusable
    obtain ⟨covers, hcovers, -⟩ := bind_eq_ok_iff.mp hreusable
    rw [bitmapWith, hload] at hset
    obtain ⟨bm', hbm', hset⟩ := bind_eq_ok_iff.mp hset
    have hbm := mapError_eq_ok_iff.mp hbm
    obtain rfl : bm = bm' := Except.ok.inj (hbm.symm.trans (mapError_eq_ok_iff.mp hbm'))
    exact ⟨bm, hbm, ⟨covers, mapError_eq_ok_iff.mp hcovers⟩, set, mapError_eq_ok_iff.mp hset⟩
  · rintro ⟨answer, hload, hcalls⟩
    rw [reusableWith, bitmapWith, hload]
    cases answer with
    | none => exact ⟨⟨false, rfl⟩, none, rfl⟩
    | some loaded =>
      obtain ⟨bm, hbm, ⟨covers, hcovers⟩, set, hset⟩ := hcalls loaded rfl
      refine ⟨⟨covers.getD false, ?_⟩, set, ?_⟩
      · exact bind_eq_ok_iff.mpr ⟨_, rfl, bind_eq_ok_iff.mpr ⟨bm, mapError_eq_ok_iff.mpr hbm,
          bind_eq_ok_iff.mpr ⟨covers, mapError_eq_ok_iff.mpr hcovers, rfl⟩⟩⟩
      · exact bind_eq_ok_iff.mpr ⟨bm, mapError_eq_ok_iff.mpr hbm, mapError_eq_ok_iff.mpr hset⟩

/-- The positions are those of the index, and the chains of a request end. -/
structure InBounds (index : List ObjectId) (values : List Nat) (entries : List Entry)
    (want haves : List ObjectId) : Prop where
  rev : ∀ v ∈ values, v < index.length
  entry : ∀ e ∈ entries, e.idxPos < index.length
  want : ChainsEnd index entries want
  haves : ChainsEnd index entries haves

variable (decode index files want haves) in
/-- The files do no harm to a request: one of them is missing, or the `.rev` file is well formed,
and the `.bitmap` file is either of the kind that is not supported, or well formed and in bounds. -/
def Harmless : Prop :=
  files.bitmap = none ∨ files.rev = none ∨
    ∃ bitmapBytes revBytes values, files.bitmap = some bitmapBytes ∧ files.rev = some revBytes ∧
      RevFile index.length values revBytes ∧
      (Unsupported bitmapBytes ∨
        ∃ entries, BitmapFile decode entries bitmapBytes ∧ InBounds index values entries want haves)

theorem bitmap_calls_ok_iff (hindex : files.index = some index) :
    ((∃ reusable, packIsExactlyReusable decode files want haves = .ok reusable) ∧
        ∃ set, trySinglePackBitmap decode files haves = .ok set) ↔ Harmless decode index files want haves := by
  rw [packIsExactlyReusable, trySinglePackBitmap, hindex]
  refine calls_ok_iff.trans ?_
  simp only [load_eq_ok_iff]
  constructor
  · rintro ⟨answer, ⟨hmissing, -⟩ | ⟨bitmapBytes, revBytes, values, hbitmap, hrev, hvalues, hanswer⟩, hcalls⟩
    · exact hmissing.imp_right Or.inl
    · refine Or.inr (Or.inr ⟨bitmapBytes, revBytes, values, hbitmap, hrev, hvalues, ?_⟩)
      rcases hanswer with ⟨hunsupported, -⟩ | ⟨entries, hentries, rfl⟩
      · exact Or.inl hunsupported
      · obtain ⟨bm, hbm, hboth⟩ := hcalls _ rfl
        obtain ⟨hpos, hentry⟩ := buildOidIndex_ok_iff.mp ⟨bm, hbm⟩
        obtain ⟨hwant, hhaves⟩ := (both_ok_iff (buildOidIndex_spec hbm)).mp hboth
        exact Or.inr ⟨entries, hentries, hpos, hentry, hwant, hhaves⟩
  · rintro (hbitmap | hrev | ⟨bitmapBytes, revBytes, values, hbitmap, hrev, hvalues, hanswer⟩)
    · exact ⟨none, Or.inl ⟨Or.inl hbitmap, rfl⟩, nofun⟩
    · exact ⟨none, Or.inl ⟨Or.inr hrev, rfl⟩, nofun⟩
    · rcases hanswer with hunsupported | ⟨entries, hentries, hbounds⟩
      · exact ⟨none, Or.inr ⟨bitmapBytes, revBytes, values, hbitmap, hrev, hvalues, Or.inl ⟨hunsupported, rfl⟩⟩, nofun⟩
      · refine ⟨_, Or.inr ⟨bitmapBytes, revBytes, values, hbitmap, hrev, hvalues, Or.inr ⟨entries, hentries, rfl⟩⟩, ?_⟩
        rintro loaded hloaded
        obtain rfl := Option.some.inj hloaded
        obtain ⟨bm, hbm⟩ := buildOidIndex_ok_iff.mpr ⟨hbounds.rev, hbounds.entry⟩
        exact ⟨bm, hbm, (both_ok_iff (buildOidIndex_spec hbm)).mpr ⟨hbounds.want, hbounds.haves⟩⟩

theorem firstReusable_ok {packs : List PackFiles}
    (h : ∀ files ∈ packs, ∃ reusable, packIsExactlyReusable decode files want haves = .ok reusable) :
    ∃ found, firstReusable decode want haves packs = .ok found := by
  induction packs with
  | nil => exact ⟨none, rfl⟩
  | cons files packs ih =>
    obtain ⟨⟨reusable, hreusable⟩, hpacks⟩ := List.forall_mem_cons.mp h
    rw [firstReusable, hreusable]
    cases reusable with
    | true => exact ⟨some files, rfl⟩
    | false => exact ih hpacks

theorem firstBitmap_ok {packs : List PackFiles}
    (h : ∀ files ∈ packs, ∃ set, trySinglePackBitmap decode files haves = .ok set) :
    ∃ found, firstBitmap decode haves packs = .ok found := by
  induction packs with
  | nil => exact ⟨none, rfl⟩
  | cons files packs ih =>
    obtain ⟨⟨set, hset⟩, hpacks⟩ := List.forall_mem_cons.mp h
    rw [firstBitmap, hset]
    cases set with
    | some set => exact ⟨some set, rfl⟩
    | none => exact ih hpacks

theorem plan_ok {packs : List PackFiles}
    (h : ∀ files ∈ packs, ∀ index, files.index = some index →
      Harmless decode index files want haves) (opts : PackOptions) :
    ∃ choice, plan decode packs want haves opts = .ok choice := by
  have hcalls : ∀ files ∈ packs, (∃ reusable, packIsExactlyReusable decode files want haves = .ok reusable) ∧
      ∃ set, trySinglePackBitmap decode files haves = .ok set := by
    intro files hfiles
    cases hindex : files.index with
    | none => exact ⟨⟨false, by rw [packIsExactlyReusable, hindex]⟩, none, by rw [trySinglePackBitmap, hindex]⟩
    | some index => exact (bitmap_calls_ok_iff hindex).mpr (h files hfiles index hindex)
  obtain ⟨set, hset⟩ : ∃ set, tryBitmapHaveSet decode packs haves = .ok set := by
    unfold tryBitmapHaveSet
    split
    · exact ⟨_, rfl⟩
    · exact firstBitmap_ok fun files hfiles => (hcalls files hfiles).2
  obtain ⟨found, hfound⟩ : ∃ found, findReusablePack decode packs want haves = .ok found := by
    unfold findReusablePack
    split
    · exact ⟨_, rfl⟩
    · exact firstReusable_ok fun files hfiles => (hcalls files hfiles).1
  have hwalk : ∃ choice, planWalk decode packs haves = .ok choice := by
    rw [planWalk, hset]
    cases set with
    | some haveSet => exact ⟨_, rfl⟩
    | none => exact ⟨_, rfl⟩
  rw [plan]
  split
  · rw [hfound]
    cases found with
    | some files => exact ⟨_, rfl⟩
    | none => exact hwalk
  · exact hwalk

/-- **When a bitmap does not break a fetch**: exactly for harmless files neither call panics or
fails, and a fetch over packs with harmless files comes to an answer. -/
theorem bitmap_harmless_iff (decode : Bytes → Except String (Ewah × Bytes))
    (want haves : List ObjectId) :
    (∀ (files : PackFiles) (index : List ObjectId), files.index = some index →
      ((∃ reusable, packIsExactlyReusable decode files want haves = .ok reusable) ∧
        (∃ set, trySinglePackBitmap decode files haves = .ok set) ↔ Harmless decode index files want haves)) ∧
    ∀ (packs : List PackFiles) (opts : PackOptions),
      (∀ files ∈ packs, ∀ index, files.index = some index → Harmless decode index files want haves) →
      ∃ choice, plan decode packs want haves opts = .ok choice :=
  ⟨fun _ _ hindex => bitmap_calls_ok_iff hindex, fun _ opts h => plan_ok h opts⟩

end Files

/-! ### Files that break a fetch -/

/-- A small decoder: a count, then the positions, a byte each. -/
def byteEwah : Bytes → Except String (Ewah × Bytes)
  | [] => .error "eof"
  | count :: rest =>
    if rest.length < count.toNat then .error "eof"
    else .ok (⟨64, (rest.take count.toNat).map UInt8.toNat⟩, rest.drop count.toNat)

/-- A `.rev` file with one value. -/
def oneRev (value : Nat) : Bytes :=
  revMagic ++ bigEndian 4 1 ++ bigEndian 4 1 ++ bigEndian 4 value ++ List.replicate 20 0

/-- A `.bitmap` file with no bits in its type bitmaps and one entry, for which bit `0` is stored. -/
def oneBitmap (version idxPos : Nat) (xorOffset : UInt8) : Bytes :=
  bitmapMagic ++ bigEndian 2 version ++ bigEndian 2 0 ++ bigEndian 4 1 ++ List.replicate 20 0 ++ [0, 0, 0, 0] ++
    bigEndian 4 idxPos ++ [xorOffset, 0, 1, 0] ++ List.replicate 20 0

/-- A pack with one object and these files. -/
def onePack (bitmap rev : Bytes) : PackFiles := ⟨some [.fill 1], some bitmap, some rev⟩

theorem bitmap_harmless_onePack :
    Harmless byteEwah [.fill 1] (onePack (oneBitmap 1 0 0) (oneRev 0)) [.fill 1] [] :=
  ((bitmap_harmless_iff byteEwah [.fill 1] []).1 _ _ rfl).mp ⟨⟨true, by decide +kernel⟩, some ∅, by decide +kernel⟩

/-- **Files that break a fetch**: a bitmap of another version, an offset to before the first entry,
and positions that the index does not have. -/
theorem bad_bitmap_breaks :
    packIsExactlyReusable byteEwah (onePack (oneBitmap 2 0 0) (oneRev 0)) [.fill 1] [] =
      .error (.error ".bitmap version 2 unsupported") ∧
    plan byteEwah [onePack (oneBitmap 2 0 0) (oneRev 0)] [.fill 1] [] {} =
      .error (.error ".bitmap version 2 unsupported") ∧
    packIsExactlyReusable byteEwah (onePack (oneBitmap 1 0 1) (oneRev 0)) [.fill 1] [] =
      .error (.panic "xor_offset points past start of entries") ∧
    trySinglePackBitmap byteEwah (onePack (oneBitmap 1 0 1) (oneRev 0)) [.fill 1] =
      .error (.panic "xor_offset points past start of entries") ∧
    packIsExactlyReusable byteEwah (onePack (oneBitmap 1 1 0) (oneRev 0)) [.fill 1] [] =
      .error (.panic "index out of bounds") ∧
    trySinglePackBitmap byteEwah (onePack (oneBitmap 1 0 0) (oneRev 1)) [.fill 1] =
      .error (.panic "index out of bounds") := by
  refine ⟨?_, ?_, ?_, ?_, ?_, ?_⟩
  all_goals decide +kernel

end Mizzle.Bitmap
