import Mizzle.Bitmap.Dense
import Mizzle.Lib.ByteOrder
import Mizzle.Lib.Results

/-!
# The files beside a pack

`parse_rev` and `parse_bitmap` of `mizzle/src/bitmap.rs`, over any bytes, and which files they
accept: the layouts `RevFile`, `BitmapHeader` and `Entries`. The EWAH decoder of `gix_bitmap` is a
parameter; it gives a bitmap and what comes after it, or fails.
-/

namespace Mizzle.Bitmap

open Lib

/-- An entry: a commit by its position in the index, and its bitmap, up to another one's. -/
structure Entry where
  idxPos : Nat
  xorOffset : UInt8
  ewah : Ewah
deriving DecidableEq

def Entry.bits (e : Entry) : Set Nat := {bit | bit ∈ e.ewah.bits}

def bitmapMagic : Bytes := utf8 "BITM"

def revMagic : Bytes := utf8 "RIDX"

def sha1Len : Nat := 20

def bitmapHeaderLen : Nat := 4 + 2 + 2 + 4 + sha1Len

def flagLookupTable : Nat := 0x10

/-- `bytes[start..start + len]`. -/
def slice (bytes : Bytes) (start len : Nat) : Bytes := (bytes.drop start).take len

/-- `chunks_exact(4)`. -/
def chunksExact4 : Bytes → List Bytes
  | a :: b :: c :: d :: rest => [a, b, c, d] :: chunksExact4 rest
  | _ => []

def parseRev (bytes : Bytes) (packObjectCount : Nat) : Except String (List Nat) :=
  let length := bytes.length
  let version := ofBigEndian (slice bytes 4 4)
  let hashAlgo := ofBigEndian (slice bytes 8 4)
  let bodyLen := packObjectCount * 4
  if length < 12 + sha1Len then .error s!".rev file too short: {length} bytes"
  else if slice bytes 0 4 ≠ revMagic then .error ".rev missing RIDX magic"
  else if version ≠ 1 then .error s!".rev version {version} unsupported"
  else if hashAlgo ≠ 1 then .error s!".rev hash algo {hashAlgo} unsupported (sha1 only)"
  else if length < 12 + bodyLen + sha1Len then .error
    s!".rev body too short: {length} bytes for {packObjectCount} objects"
  else .ok ((chunksExact4 (slice bytes 12 bodyLen)).map ofBigEndian)

section Decode

variable (decode : Bytes → Except String (Ewah × Bytes))

/-- Past a number of EWAH bitmaps. -/
def skipEwahs : Nat → Bytes → Except String Bytes
  | 0, cursor => .ok cursor
  | n + 1, cursor =>
    match decode cursor with
    | .error e => .error ("EWAH type-bitmap: " ++ e)
    | .ok (_, rest) => skipEwahs n rest

/-- The loop over the entries. -/
def parseEntries : Nat → Bytes → Except String (List Entry)
  | 0, _ => .ok []
  | n + 1, cursor =>
    if cursor.length < 6 then .error "truncated entry header"
    else
      match decode (cursor.drop 6) with
      | .error e => .error ("EWAH entry bitmap: " ++ e)
      | .ok (ewah, rest) => (parseEntries n rest).map (⟨ofBigEndian (slice cursor 0 4), cursor.getD 4 0, ewah⟩ :: ·)

/-- `parse_bitmap`; nothing if the bitmap has a lookup table. -/
def parseBitmap (bytes : Bytes) : Except String (Option (List Entry)) :=
  let version := ofBigEndian (slice bytes 4 2)
  if bytes.length < bitmapHeaderLen + sha1Len then .error ".bitmap too short"
  else if slice bytes 0 4 ≠ bitmapMagic then .error ".bitmap missing BITM magic"
  else if version ≠ 1 then .error s!".bitmap version {version} unsupported"
  else if ofBigEndian (slice bytes 6 2) &&& flagLookupTable ≠ 0 then .ok none
  else do
    let cursor ← skipEwahs decode 4 (bytes.drop bitmapHeaderLen)
    let entries ← parseEntries decode (ofBigEndian (slice bytes 8 4)) cursor
    return some entries

end Decode

/-! ### Slices -/

theorem slice_append {a b c : Bytes} {start len : Nat} (ha : a.length = start)
    (hb : b.length = len) : slice (a ++ (b ++ c)) start len = b := by
  rw [slice, List.drop_left' ha, List.take_left' hb]

theorem slice_append_drop (bytes : Bytes) (start len : Nat) :
    slice bytes start len ++ bytes.drop (start + len) = bytes.drop start := by
  rw [slice, ← List.drop_drop, List.take_append_drop]

variable {bytes : Bytes} {n : Nat} {start len : Nat} {cursor : Bytes}

theorem length_slice (h : start + len ≤ bytes.length) : (slice bytes start len).length = len := by
  rw [slice, List.length_take, List.length_drop]
  omega

theorem bigEndian_slice (h : start + len ≤ bytes.length) :
    bigEndian len (ofBigEndian (slice bytes start len)) = slice bytes start len := by
  have hnumber := bigEndian_ofBigEndian (slice bytes start len)
  rwa [length_slice h] at hnumber

theorem ofBigEndian_slice_lt (h : start + len ≤ bytes.length) :
    ofBigEndian (slice bytes start len) < 256 ^ len := by
  have hlt := ofBigEndian_lt (slice bytes start len)
  rwa [length_slice h] at hlt

/-! ### `.rev` -/

/-- The layout of a `.rev` file with these values; what comes after them is not read. -/
def RevFile (count : Nat) (values : List Nat) (bytes : Bytes) : Prop :=
  values.length = count ∧ (∀ v ∈ values, v < 2 ^ 32) ∧ ∃ trailer : Bytes, sha1Len ≤ trailer.length ∧
    bytes = revMagic ++ (bigEndian 4 1 ++ (bigEndian 4 1 ++ (values.flatMap (bigEndian 4) ++ trailer)))

theorem chunksExact4_flatMap {values : List Nat} (h : ∀ v ∈ values, v < 2 ^ 32) :
    (chunksExact4 (values.flatMap (bigEndian 4))).map ofBigEndian = values := by
  induction values with
  | nil => rfl
  | cons v values ih =>
    have hfirst : ofBigEndian (bigEndian 4 v) = v := ofBigEndian_bigEndian (h v List.mem_cons_self)
    have hrest := ih fun x hx => h x (List.mem_cons_of_mem _ hx)
    rw [List.flatMap_cons]
    exact congr (congrArg List.cons hfirst) hrest

theorem flatMap_chunksExact4 (n : Nat) {body : Bytes} (h : body.length = n * 4) :
    ((chunksExact4 body).map ofBigEndian).flatMap (bigEndian 4) = body ∧
      ((chunksExact4 body).map ofBigEndian).length = n ∧ ∀ v ∈ (chunksExact4 body).map ofBigEndian, v < 2 ^ 32 := by
  induction n generalizing body with
  | zero =>
    rw [Nat.zero_mul, List.length_eq_zero_iff] at h
    subst h
    exact ⟨rfl, rfl, by simp [chunksExact4]⟩
  | succ n ih =>
    obtain ⟨a, b, c, d, rest, rfl⟩ : ∃ a b c d rest, body = a :: b :: c :: d :: rest := by
      rcases body with _ | ⟨a, _ | ⟨b, _ | ⟨c, _ | ⟨d, rest⟩⟩⟩⟩
      case cons.cons.cons.cons => exact ⟨a, b, c, d, rest, rfl⟩
      all_goals simp only [List.length_cons, List.length_nil] at h; omega
    obtain ⟨hbody, hlength, hlt⟩ := @ih rest (by simp only [List.length_cons] at h; omega)
    have hfirst : bigEndian 4 (ofBigEndian [a, b, c, d]) = [a, b, c, d] := bigEndian_ofBigEndian [a, b, c, d]
    rw [chunksExact4, List.map_cons, List.flatMap_cons, hfirst, hbody]
    refine ⟨rfl, by rw [List.length_cons, hlength], fun v hv => ?_⟩
    rcases List.mem_cons.mp hv with rfl | hv
    · exact (ofBigEndian_lt [a, b, c, d]).trans_eq (by norm_num)
    · exact hlt v hv

/-- **Exactly the `.rev` files are read**, with their values. -/
theorem parseRev_eq_ok_iff {count : Nat} {values : List Nat} :
    parseRev bytes count = .ok values ↔ RevFile count values bytes := by
  rw [parseRev]
  simp only [error_else_eq_ok_iff, not_not, not_lt, ne_eq, Except.ok.injEq]
  constructor
  · rintro ⟨-, hmagic, hversion, halgo, hlong, hvalues⟩
    have hslice : (slice bytes 12 (count * 4)).length = count * 4 := length_slice (by omega)
    obtain ⟨hflat, hlength, hlt⟩ := flatMap_chunksExact4 count hslice
    rw [hvalues] at hflat hlength hlt
    have hversion' : bigEndian 4 1 = slice bytes 4 4 := by rw [← hversion, bigEndian_slice (by omega)]
    have halgo' : bigEndian 4 1 = slice bytes 8 4 := by rw [← halgo, bigEndian_slice (by omega)]
    refine ⟨hlength, hlt, bytes.drop (12 + count * 4), by rw [List.length_drop]; omega, ?_⟩
    calc bytes = slice bytes 0 4 ++ (slice bytes 4 4 ++ (slice bytes 8 4 ++ (slice bytes 12 (count * 4) ++
          bytes.drop (12 + count * 4)))) := by
          rw [slice_append_drop bytes 12, slice_append_drop bytes 8, slice_append_drop bytes 4,
            slice_append_drop bytes 0]
          rfl
      _ = _ := by rw [hmagic, ← hversion', ← halgo', hflat]
  · rintro ⟨hlength, hlt, trailer, htrailer, rfl⟩
    have hbody : (values.flatMap (bigEndian 4)).length = count * 4 := by
      rw [List.length_flatMap]
      simp [hlength]
    have hvalues := @slice_append (revMagic ++ (bigEndian 4 1 ++ bigEndian 4 1)) _ trailer 12 _ rfl hbody
    have halgo := @slice_append (revMagic ++
      bigEndian 4 1) (bigEndian 4 1) (values.flatMap (bigEndian 4) ++ trailer) 8 4 rfl rfl
    have hversion := @slice_append revMagic (bigEndian 4 1)
      (bigEndian 4 1 ++ (values.flatMap (bigEndian 4) ++ trailer)) 4 4 rfl rfl
    simp only [List.append_assoc] at hvalues halgo
    have htotal : 12 + count * 4 + sha1Len ≤
        (revMagic ++ (bigEndian 4 1 ++ (bigEndian 4 1 ++ (values.flatMap (bigEndian 4) ++ trailer)))).length := by
      simp only [List.length_append, hbody, length_bigEndian, show revMagic.length = 4 from rfl]
      omega
    refine ⟨by omega, rfl, ?_, ?_, htotal, ?_⟩
    · rw [hversion]
      rfl
    · rw [halgo]
      rfl
    · rw [hvalues, chunksExact4_flatMap hlt]

/-! ### `.bitmap` -/

/-- The beginning of a `.bitmap` file: flags, the number of entries, and what comes after the hash
of the pack. -/
def BitmapHeader (flags count : Nat) (bytes body : Bytes) : Prop :=
  flags < 2 ^ 16 ∧ count < 2 ^ 32 ∧ sha1Len ≤ body.length ∧ ∃ hash : Bytes, hash.length = sha1Len ∧
    bytes = bitmapMagic ++ (bigEndian 2 1 ++ (bigEndian 2 flags ++ (bigEndian 4 count ++ (hash ++ body))))

section Decode

variable (decode : Bytes → Except String (Ewah × Bytes))

/-- A number of EWAH bitmaps, and what comes after them. -/
inductive Ewahs : Nat → Bytes → Bytes → Prop
  | done (rest : Bytes) : Ewahs 0 rest rest
  | next {n : Nat} {cursor middle rest : Bytes} {ewah : Ewah} (hdecode : decode cursor = .ok (ewah, middle))
    (h : Ewahs n middle rest) : Ewahs (n + 1) cursor rest

inductive Entries : List Entry → Bytes → Prop
  | nil (rest : Bytes) : Entries [] rest
  | cons {pos : Nat} (hpos : pos < 2 ^ 32) (xorOffset flags : UInt8) {ewah : Ewah}
    {cursor rest : Bytes} {entries : List Entry}
    (hdecode : decode cursor = .ok (ewah, rest)) (h : Entries entries rest) :
    Entries (⟨pos, xorOffset, ewah⟩ :: entries) (bigEndian 4 pos ++ xorOffset :: flags :: cursor)

variable {decode}

theorem skipEwahs_eq_ok_iff {cursor rest : Bytes} :
    skipEwahs decode n cursor = .ok rest ↔ Ewahs decode n cursor rest := by
  constructor
  · intro h
    induction n generalizing cursor with
    | zero => exact Except.ok.inj h ▸ .done cursor
    | succ n ih =>
      rw [skipEwahs] at h
      cases hdecode : decode cursor with
      | error e =>
        rw [hdecode] at h
        cases h
      | ok answer =>
        rw [hdecode] at h
        exact .next hdecode (ih h)
  · intro h
    induction h with
    | done rest => rfl
    | next hdecode _ ih =>
      rw [skipEwahs, hdecode]
      exact ih

theorem entryHeader_eq (h : 6 ≤ cursor.length) :
    ∃ flags, cursor = bigEndian 4 (ofBigEndian (slice cursor 0 4)) ++
      cursor.getD 4 0 :: flags :: cursor.drop 6 := by
  rcases cursor with _ | ⟨a, _ | ⟨b, _ | ⟨c, _ | ⟨d, _ | ⟨x, _ | ⟨flags, rest⟩⟩⟩⟩⟩⟩
  case cons.cons.cons.cons.cons.cons =>
    have hnumber : bigEndian 4 (ofBigEndian [a, b, c, d]) = [a, b, c, d] := bigEndian_ofBigEndian [a, b, c, d]
    exact ⟨flags, congrArg (· ++ x :: flags :: rest) hnumber.symm⟩
  all_goals simp only [List.length_cons, List.length_nil] at h; omega

theorem parseEntries_succ_iff {entries : List Entry} :
    parseEntries decode (n + 1) cursor = .ok entries ↔ 6 ≤ cursor.length ∧ ∃ ewah rest others,
      decode (cursor.drop 6) = .ok (ewah, rest) ∧ parseEntries decode n rest = .ok others ∧
      entries = ⟨ofBigEndian (slice cursor 0 4), cursor.getD 4 0, ewah⟩ :: others := by
  rw [parseEntries, error_else_eq_ok_iff, not_lt]
  refine and_congr_right fun _ => ?_
  cases decode (cursor.drop 6) with
  | error e => simp
  | ok answer =>
    obtain ⟨ewah, rest⟩ := answer
    simp only [Except.ok.injEq, Prod.mk.injEq]
    cases hrest : parseEntries decode n rest with
    | error e =>
      refine ⟨nofun, ?_⟩
      rintro ⟨_, _, others, ⟨-, rfl⟩, hothers, -⟩
      exact nomatch hrest.symm.trans hothers
    | ok others =>
      refine ⟨fun h => ⟨ewah, rest, others, ⟨rfl, rfl⟩, hrest, (Except.ok.inj h).symm⟩, ?_⟩
      rintro ⟨_, _, others', ⟨rfl, rfl⟩, hothers, rfl⟩
      obtain rfl := Except.ok.inj (hrest.symm.trans hothers)
      rfl

theorem parseEntries_eq_ok_iff {entries : List Entry} :
    parseEntries decode n cursor = .ok entries ↔ entries.length = n ∧
      Entries decode entries cursor := by
  constructor
  · intro h
    induction n generalizing cursor entries with
    | zero =>
      obtain rfl : [] = entries := Except.ok.inj h
      exact ⟨rfl, .nil cursor⟩
    | succ n ih =>
      obtain ⟨hlong, ewah, rest, others, hdecode, hrest, rfl⟩ := parseEntries_succ_iff.mp h
      obtain ⟨hlength, hothers⟩ := ih hrest
      obtain ⟨flags, hcursor⟩ := entryHeader_eq hlong
      have hpos : ofBigEndian (slice cursor 0 4) < 256 ^ 4 := ofBigEndian_slice_lt (by omega)
      have hentry := Entries.cons hpos (cursor.getD 4 0) flags hdecode hothers
      rw [← hcursor] at hentry
      exact ⟨by rw [List.length_cons, hlength], hentry⟩
  · rintro ⟨rfl, h⟩
    induction h with
    | nil rest => rfl
    | @cons pos hpos xorOffset flags ewah cursor rest entries hdecode _ ih =>
      have hslice : slice (bigEndian 4 pos ++ xorOffset :: flags :: cursor) 0 4 = bigEndian 4 pos :=
        @slice_append [] (bigEndian 4 pos) _ 0 4 rfl rfl
      refine parseEntries_succ_iff.mpr ⟨?_, ewah, rest, entries, hdecode, ih, ?_⟩
      · simp only [List.length_append, length_bigEndian, List.length_cons]
        omega
      · rw [hslice, ofBigEndian_bigEndian hpos]
        rfl

theorem bitmapHeader_iff {flags count : Nat} {bytes body : Bytes} :
    BitmapHeader flags count bytes body ↔
      bitmapHeaderLen + sha1Len ≤ bytes.length ∧ slice bytes 0 4 = bitmapMagic ∧ ofBigEndian (slice bytes 4 2) = 1 ∧
        ofBigEndian (slice bytes 6 2) = flags ∧ ofBigEndian (slice bytes 8 4) = count ∧
          bytes.drop bitmapHeaderLen = body := by
  constructor
  · rintro ⟨hflags, hcount, hbody, hash, hhash, rfl⟩
    have hversion := @slice_append bitmapMagic (bigEndian 2 1) (bigEndian 2 flags ++
      (bigEndian 4 count ++ (hash ++ body)))
      4 2 rfl rfl
    have hflags' := @slice_append (bitmapMagic ++
      bigEndian 2 1) (bigEndian 2 flags) (bigEndian 4 count ++ (hash ++ body))
      6 2 rfl rfl
    have hcount' := @slice_append (bitmapMagic ++
      (bigEndian 2 1 ++ bigEndian 2 flags)) (bigEndian 4 count) (hash ++ body)
      8 4 rfl rfl
    have hdrop := @List.drop_left' _ (bitmapMagic ++
      (bigEndian 2 1 ++ (bigEndian 2 flags ++ (bigEndian 4 count ++ hash)))) body
      bitmapHeaderLen (by simp only [List.length_append, length_bigEndian, hhash]; rfl)
    simp only [List.append_assoc] at hflags' hcount' hdrop
    refine ⟨?_, rfl, by rw [hversion]; rfl, by rw [hflags', ofBigEndian_bigEndian hflags],
      by rw [hcount', ofBigEndian_bigEndian hcount], hdrop⟩
    simp only [List.length_append, length_bigEndian, hhash, show bitmapMagic.length = 4 from rfl, bitmapHeaderLen]
    omega
  · rintro ⟨hlong, hmagic, hversion, rfl, rfl, rfl⟩
    simp only [bitmapHeaderLen, sha1Len] at hlong
    refine ⟨ofBigEndian_slice_lt (by omega), ofBigEndian_slice_lt (by omega), ?_, slice bytes 12 20,
      length_slice (by omega), ?_⟩
    · rw [List.length_drop, bitmapHeaderLen, sha1Len]
      omega
    · have hversion' : bigEndian 2 1 = slice bytes 4 2 := by rw [← hversion, bigEndian_slice (by omega)]
      rw [bigEndian_slice (by omega), bigEndian_slice (by omega), hversion', ← hmagic,
        show bitmapHeaderLen = 12 + 20 from rfl,
        slice_append_drop bytes 12, slice_append_drop bytes 8, slice_append_drop bytes 6, slice_append_drop bytes 4,
        slice_append_drop bytes 0]
      rfl

/-- A `.bitmap` file with a lookup table. -/
def Unsupported (bytes : Bytes) : Prop :=
  ∃ flags count body, BitmapHeader flags count bytes body ∧ flags &&& flagLookupTable ≠ 0

variable (decode) in
/-- The layout of a `.bitmap` file with these entries. -/
def BitmapFile (entries : List Entry) (bytes : Bytes) : Prop :=
  ∃ flags body cursor, BitmapHeader flags entries.length bytes body ∧ flags &&& flagLookupTable = 0 ∧
    Ewahs decode 4 body cursor ∧ Entries decode entries cursor

theorem parseBody_eq_ok_iff {body : Bytes} {answer : Option (List Entry)} : (do
      let cursor ← skipEwahs decode 4 body
      let entries ← parseEntries decode n cursor
      return some entries : Except String _) = .ok answer ↔
    ∃ cursor entries, Ewahs decode 4 body cursor ∧ entries.length = n ∧ Entries decode entries cursor ∧
      answer = some entries := by
  constructor
  · intro h
    obtain ⟨cursor, hskip, h⟩ := bind_eq_ok_iff.mp h
    obtain ⟨entries, hparse, h⟩ := bind_eq_ok_iff.mp h
    obtain ⟨hlength, hentries⟩ := parseEntries_eq_ok_iff.mp hparse
    exact ⟨cursor, entries, skipEwahs_eq_ok_iff.mp hskip, hlength, hentries, (Except.ok.inj h).symm⟩
  · rintro ⟨cursor, entries, hskip, hlength, hentries, rfl⟩
    exact bind_eq_ok_iff.mpr ⟨cursor, skipEwahs_eq_ok_iff.mpr hskip,
      bind_eq_ok_iff.mpr ⟨entries, parseEntries_eq_ok_iff.mpr ⟨hlength, hentries⟩, rfl⟩⟩

/-- **Exactly the `.bitmap` files are read**, with their entries, or with nothing if they have a
lookup table. -/
theorem parseBitmap_eq_ok_iff {answer : Option (List Entry)} :
    parseBitmap decode bytes = .ok answer ↔
      Unsupported bytes ∧ answer = none ∨ ∃ entries, BitmapFile decode entries bytes ∧ answer = some entries := by
  rw [parseBitmap]
  simp only [error_else_eq_ok_iff, not_not, not_lt, ne_eq]
  constructor
  · rintro ⟨hlong, hmagic, hversion, h⟩
    have hheader := bitmapHeader_iff.mpr ⟨hlong, hmagic, hversion, rfl, rfl, rfl⟩
    split at h
    · exact Or.inl ⟨⟨_, _, _, hheader, ‹_›⟩, (Except.ok.inj h).symm⟩
    · rename_i hflag
      obtain ⟨cursor, entries, hskip, hlength, hentries, hanswer⟩ := parseBody_eq_ok_iff.mp h
      rw [← hlength] at hheader
      exact Or.inr ⟨entries, ⟨_, _, cursor, hheader, not_not.mp hflag, hskip, hentries⟩, hanswer⟩
  · rintro (⟨⟨flags, count, body, hheader, hflag⟩, rfl⟩ | ⟨entries, ⟨flags, body, cursor, hheader, hflag, hskip, hentries⟩, rfl⟩)
    · obtain ⟨hlong, hmagic, hversion, rfl, -, -⟩ := bitmapHeader_iff.mp hheader
      exact ⟨hlong, hmagic, hversion, if_pos hflag⟩
    · obtain ⟨hlong, hmagic, hversion, rfl, hcount, rfl⟩ := bitmapHeader_iff.mp hheader
      refine ⟨hlong, hmagic, hversion, (if_neg (not_not.mpr hflag)).trans ?_⟩
      exact parseBody_eq_ok_iff.mpr ⟨cursor, entries, hskip, hcount.symm, hentries, rfl⟩

end Decode

end Mizzle.Bitmap
