import Mizzle.Lfs.Store
import Mizzle.Lib.Decimal
import Mizzle.Lib.Results
import Mizzle.Lib.Text
import Mizzle.Lib.Utf8

/-!
# LFS pointers

The texts of `mizzle-proto/src/lfs.rs`: an oid as it is displayed and parsed, and as it is
serialised, and the pointer blob.

A pointer is read leniently. Hexadecimal digits may be in either case, lines may end in CR LF, lines
that are neither an oid nor a size are passed over, and of several oids or sizes the last one
counts, also when it cannot be parsed (`parsePointer_eq_some_iff`). It is written in one way, and
what is written is read back (`pointer_roundTrip`).
-/

namespace Mizzle.Lfs

open Lib

/-! ### Oids -/

/-- `to_hex`, as a string. -/
def LfsOid.toHexString (oid : LfsOid) : String :=
  String.ofList (oid.toHex.map fun b => Char.ofNat b.toNat)

/-- `Display`. -/
def LfsOid.display (oid : LfsOid) : String := "sha256:" ++ oid.toHexString

inductive LfsOidError where
  | noScheme (s : String)
  | length (n : Nat)
  | digit (b : UInt8)
deriving DecidableEq

/-- The text; `{:?}` of a string and of a character is the standard library's. -/
def LfsOidError.message (debugStr : String → String) (debugChar : Char → String) :
    LfsOidError → String
  | .noScheme s => "LfsOid must start with 'sha256:', got: " ++ debugStr s
  | .length n => "LfsOid hex part must be 64 chars, got " ++ decimalText n
  | .digit b => "invalid hex digit: " ++ debugChar (Char.ofNat b.toNat)

def hexNibble (b : UInt8) : Except LfsOidError UInt8 :=
  if 48 ≤ b ∧ b ≤ 57 then .ok (b - 48)
  else if 97 ≤ b ∧ b ≤ 102 then .ok (b - 97 + 10)
  else if 65 ≤ b ∧ b ≤ 70 then .ok (b - 65 + 10)
  else .error (.digit b)

/-- The loop of `from_str` over pairs of digits. There is no odd one among 64. -/
def hexPairs : Bytes → Except LfsOidError Bytes
  | [] => .ok []
  | [_] => .ok []
  | a :: b :: rest => do
    let hi ← hexNibble a
    let lo ← hexNibble b
    let bytes ← hexPairs rest
    return (hi <<< 4 ||| lo) :: bytes

theorem length_of_hexPairs {hex bytes : Bytes} (h : hexPairs hex = .ok bytes) :
    bytes.length = hex.length / 2 := by
  induction hex using hexPairs.induct generalizing bytes with
  | case1 =>
    rw [← Except.ok.inj h]
    rfl
  | case2 =>
    rw [← Except.ok.inj h]
    simp
  | case3 a b rest ih =>
    obtain ⟨hi, -, h⟩ := bind_eq_ok_iff.mp h
    obtain ⟨lo, -, h⟩ := bind_eq_ok_iff.mp h
    obtain ⟨tail, htail, h⟩ := bind_eq_ok_iff.mp h
    rw [← Except.ok.inj h]
    simp only [List.length_cons, ih htail]
    omega

/-- `from_str`. -/
def LfsOid.fromStr (s : String) : Except LfsOidError LfsOid :=
  match s.toList.dropPrefix? "sha256:".toList with
  | none => .error (.noScheme s)
  | some hex =>
    let hex := utf8 (String.ofList hex)
    if hlength : hex.length = 64 then
      match hbytes : hexPairs hex with
      | .error e => .error e
      | .ok bytes => .ok ⟨bytes, by rw [length_of_hexPairs hbytes, hlength]⟩
    else .error (.length hex.length)

/-- A format that has strings, as serde sees it: a string that is written can be read back. -/
structure Format (W : Type) where
  serializeStr : String → W
  deserializeString : W → Except String String
  read_back : ∀ s, deserializeString (serializeStr s) = .ok s

section

variable {W : Type} (format : Format W)

/-- `serialize`: the digits without the scheme. -/
def LfsOid.serialize (oid : LfsOid) : W := format.serializeStr oid.toHexString

/-- `deserialize`. The two kinds of error are those of the format and those of `from_str`. -/
def LfsOid.deserialize (w : W) : Except (String ⊕ LfsOidError) LfsOid := do
  let s ← (format.deserializeString w).mapError .inl
  let withPrefix := if (s.toList.dropPrefix? "sha256:".toList).isSome then s else "sha256:" ++ s
  (LfsOid.fromStr withPrefix).mapError .inr

end

/-! ### Pointers -/

structure LfsPointer where
  oid : LfsOid
  size : UInt64
deriving DecidableEq

/-- `str::parse::<u64>`: at least one digit, after an optional plus sign. -/
def parseU64 (text : Bytes) : Option UInt64 :=
  let digits := if text.head? = some 43 then text.tail else text
  if digits = [] then none
  else (decimalNumber digits).bind fun n => if n < 2 ^ 64 then some (UInt64.ofNat n) else none

def versionLine : String := "version https://git-lfs.github.com/spec/v1"

def parseOidText (rest : List Char) : Option LfsOid :=
  (LfsOid.fromStr (String.ofList rest)).toOption

def parseSizeText (rest : List Char) : Option UInt64 := parseU64 (utf8 (String.ofList rest))

/-- A line after the first. -/
def readLine (found : Option LfsOid × Option UInt64) (line : List Char) :
    Option LfsOid × Option UInt64 :=
  match line.dropPrefix? "oid ".toList with
  | some rest => (parseOidText rest, found.2)
  | none =>
    match line.dropPrefix? "size ".toList with
    | some rest => (found.1, parseSizeText rest)
    | none => found

/-- `parse_pointer`. -/
def parsePointer (blob : Bytes) : Option LfsPointer := do
  let text ← fromUtf8 blob
  match textLines text.toList with
  | [] => none
  | first :: lines =>
    if first = versionLine.toList then
      let found := lines.foldl readLine (none, none)
      let oid ← found.1
      let size ← found.2
      return { oid, size }
    else none

/-- `write_pointer`. -/
def writePointer (p : LfsPointer) : String :=
  versionLine ++ "\noid " ++ p.oid.display ++ "\nsize " ++ decimalText p.size.toNat ++ "\n"

/-! ### Parsing oids -/

theorem hexNibble_eq_ok_iff {b v : UInt8} : hexNibble b = .ok v ↔ hexValue b = some v.toNat := by
  have hall : ∀ n < 256, hexNibble (UInt8.ofNat n) =
      (hexValue (UInt8.ofNat n)).elim (.error (.digit (UInt8.ofNat n))) fun value =>
        .ok (UInt8.ofNat value) := by decide +kernel
  have hb := hall b.toNat b.toNat_lt
  rw [UInt8.ofNat_toNat] at hb
  rw [hb]
  cases hvalue : hexValue b with
  | none => simp
  | some n =>
    have hn : n < 256 := (hexValue_lt hvalue).trans (by decide)
    rw [Option.elim_some, Except.ok.injEq, Option.some.injEq, ← UInt8.toNat_inj, UInt8.toNat_ofNat_of_lt' hn]

theorem hexPairs_eq_ok_iff {hex bytes : Bytes} (heven : hex.length % 2 = 0) :
    hexPairs hex = .ok bytes ↔ hexDecode hex = some bytes := by
  have hbyte : ∀ hi < 16, ∀ lo < 16, UInt8.ofNat hi <<< 4 ||| UInt8.ofNat lo = UInt8.ofNat (16 * hi + lo) := by decide
  induction hex using hexPairs.induct generalizing bytes with
  | case1 => simp [hexPairs, hexDecode]
  | case2 => simp at heven
  | case3 a b rest ih =>
    have hrest : rest.length % 2 = 0 := by
      simp only [List.length_cons] at heven
      omega
    rw [hexPairs, hexDecode]
    simp only [bind_eq_ok_iff, Option.bind_eq_bind, Option.bind_eq_some_iff, hexNibble_eq_ok_iff, ih hrest]
    constructor
    · rintro ⟨hi, hhi, lo, hlo, tail, htail, h⟩
      refine ⟨_, hhi, _, hlo, tail, htail, ?_⟩
      rw [← Except.ok.inj h, ← hbyte _ (hexValue_lt hhi) _ (hexValue_lt hlo), UInt8.ofNat_toNat, UInt8.ofNat_toNat]
      rfl
    · rintro ⟨hi, hhi, lo, hlo, tail, htail, h⟩
      have hhi' := hexValue_lt hhi
      have hlo' := hexValue_lt hlo
      refine ⟨UInt8.ofNat hi, ?_, UInt8.ofNat lo, ?_, tail, htail, ?_⟩
      · rw [hhi, UInt8.toNat_ofNat_of_lt' (show hi < 256 by omega)]
      · rw [hlo, UInt8.toNat_ofNat_of_lt' (show lo < 256 by omega)]
      · rw [← Option.some.inj h, hbyte hi hhi' lo hlo']
        rfl

/-- **What `from_str` accepts**: 64 digits in either case after the scheme. -/
theorem fromStr_eq_ok_iff {s : String} {oid : LfsOid} :
    LfsOid.fromStr s = .ok oid ↔
      ∃ hex, s.toList = "sha256:".toList ++ hex ∧ hexDecode (utf8 (String.ofList hex)) = some oid.bytes := by
  rw [LfsOid.fromStr]
  cases hdrop : s.toList.dropPrefix? "sha256:".toList with
  | none =>
    simp only [reduceCtorEq, false_iff, not_exists, not_and]
    intro hex hs
    rw [dropPrefix?_eq_some.mpr hs] at hdrop
    cases hdrop
  | some hex =>
    have hs := dropPrefix?_eq_some.mp hdrop
    have hhex : ∀ hex', s.toList = "sha256:".toList ++ hex' ↔ hex = hex' := fun hex' => by
      rw [hs, List.append_cancel_left_eq]
    simp only [hhex, exists_eq_left']
    by_cases hlength : (utf8 (String.ofList hex)).length = 64
    · rw [dif_pos hlength, ← hexPairs_eq_ok_iff (by rw [hlength])]
      split
      · simp [*]
      · rename_i bytes hbytes
        have hiff : hexPairs (utf8 (String.ofList hex)) = .ok oid.bytes ↔ bytes = oid.bytes := by
          rw [hbytes, Except.ok.injEq]
        rw [hiff, Except.ok.injEq, LfsOid.ext_iff]
    · rw [dif_neg hlength]
      refine iff_of_false (by simp) fun hdecode => hlength ?_
      rw [length_of_hexDecode hdecode, oid.length_eq]

theorem utf8_toHexString (oid : LfsOid) : utf8 oid.toHexString = oid.toHex :=
  utf8_ofList_map_hexEncode oid.bytes

theorem mem_toHexString {oid : LfsOid} {c : Char} (h : c ∈ oid.toHexString.toList) :
    48 ≤ c.toNat ∧ c.toNat ≤ 57 ∨ 97 ≤ c.toNat ∧ c.toNat ≤ 102 := by
  rw [LfsOid.toHexString, String.toList_ofList] at h
  exact range_of_mem_map_hexEncode h

theorem fromStr_display (oid : LfsOid) : LfsOid.fromStr oid.display = .ok oid := by
  refine fromStr_eq_ok_iff.mpr ⟨oid.toHexString.toList, ?_, ?_⟩
  · rw [LfsOid.display, String.toList_append]
  · rw [String.ofList_toList, utf8_toHexString, LfsOid.toHex, hexDecode_hexEncode]

theorem deserialize_serialize {W : Type} (format : Format W) (oid : LfsOid) :
    LfsOid.deserialize format (LfsOid.serialize format oid) = .ok oid := by
  have hno : ¬ (oid.toHexString.toList.dropPrefix? "sha256:".toList).isSome := by
    intro hsome
    obtain ⟨rest, hrest⟩ := Option.isSome_iff_exists.mp hsome
    have hmem : 's' ∈ oid.toHexString.toList := by
      rw [dropPrefix?_eq_some.mp hrest]
      simp
    exact absurd (mem_toHexString hmem) (by decide)
  refine bind_eq_ok_iff.mpr ⟨oid.toHexString, mapError_eq_ok_iff.mpr (format.read_back _), mapError_eq_ok_iff.mpr ?_⟩
  rw [if_neg hno]
  exact fromStr_display oid

/-! ### Parsing pointers -/

/-- What the last line with a prefix has behind it. -/
def lastAfter (front : List Char) (lines : List (List Char)) : Option (List Char) :=
  (lines.filterMap fun line => line.dropPrefix? front).getLast?

theorem lastAfter_concat (front : List Char) (lines : List (List Char)) (line : List Char) :
    lastAfter front (lines ++ [line]) = (line.dropPrefix? front).or (lastAfter front lines) := by
  rw [lastAfter, List.filterMap_append, List.getLast?_append, lastAfter]
  cases hdrop : line.dropPrefix? front <;> simp [hdrop]

theorem foldl_readLine (lines : List (List Char)) : lines.foldl readLine (none, none) =
    ((lastAfter "oid ".toList lines).bind parseOidText, (lastAfter "size ".toList lines).bind parseSizeText) := by
  induction lines using List.reverseRecOn with
  | nil => rfl
  | append_singleton lines line ih =>
    rw [List.foldl_concat, ih, readLine, lastAfter_concat, lastAfter_concat]
    cases hoid : line.dropPrefix? "oid ".toList with
    | some rest =>
      have hsize : line.dropPrefix? "size ".toList = none := by
        rw [dropPrefix?_eq_some.mp hoid]
        rfl
      rw [hsize]
      rfl
    | none => cases hsize : line.dropPrefix? "size ".toList <;> rfl

/-- **What `parse_pointer` accepts**, and what it makes of it. -/
theorem parsePointer_eq_some_iff {blob : Bytes} {p : LfsPointer} :
    parsePointer blob = some p ↔ ∃ text lines, fromUtf8 blob = some text ∧ textLines text.toList =
      versionLine.toList :: lines ∧
      (lastAfter "oid ".toList lines).bind parseOidText = some p.oid ∧
      (lastAfter "size ".toList lines).bind parseSizeText = some p.size := by
  rw [parsePointer]
  cases htext : fromUtf8 blob with
  | none => simp only [Option.bind_eq_bind, Option.bind_none, reduceCtorEq, false_and, exists_false]
  | some text =>
    simp only [Option.some.injEq, exists_and_left, exists_eq_left']
    cases hlines : textLines text.toList with
    | nil => simp only [Option.bind_eq_bind, Option.bind_some, hlines, reduceCtorEq, false_and, exists_false]
    | cons first lines =>
      by_cases hfirst : first = versionLine.toList
      · simp only [Option.bind_eq_bind, Option.bind_some, hlines, hfirst, if_true, foldl_readLine,
          Option.bind_eq_some_iff,
          Option.pure_def, Option.some.injEq, List.cons.injEq, true_and, exists_eq_left']
        constructor
        · rintro ⟨oid, hoid, size, hsize, rfl⟩
          exact ⟨hoid, hsize⟩
        · rintro ⟨hoid, hsize⟩
          exact ⟨p.oid, hoid, p.size, hsize, rfl⟩
      · simp only [Option.bind_eq_bind, Option.bind_some, hlines, hfirst, if_false, reduceCtorEq,
          List.cons.injEq, false_and,
          exists_false]

theorem parseU64_decimal (n : UInt64) : parseU64 (decimal n.toNat) = some n := by
  rw [parseU64, if_neg (head?_decimal_ne (by decide)), if_neg (decimal_ne_nil _),
    decimalNumber_decimal, Option.bind_some,
    if_pos n.toNat_lt, UInt64.ofNat_toNat]

/-- The two lines after the first. -/
def pointerLines (p : LfsPointer) : List (List Char) :=
  ["oid ".toList ++ p.oid.display.toList, "size ".toList ++ (decimalText p.size.toNat).toList]

theorem toList_writePointer (p : LfsPointer) :
    (writePointer p).toList = (versionLine.toList :: pointerLines p).flatMap (· ++ ['\n']) := by
  have hoid : "\noid ".toList = '\n' :: "oid ".toList := rfl
  have hsize : "\nsize ".toList = '\n' :: "size ".toList := rfl
  have hend : "\n".toList = ['\n'] := rfl
  simp only [writePointer, pointerLines, String.toList_append, hoid, hsize, hend, List.flatMap_cons, List.flatMap_nil,
    List.append_assoc, List.cons_append, List.nil_append, List.append_nil]

theorem lineEnd_notMem {p : LfsPointer} {c : Char} (hc : c = '\n' ∨ c = '\r') :
    ∀ line ∈ versionLine.toList :: pointerLines p, c ∉ line := by
  have hfixed : c ∉ versionLine.toList ∧ c ∉ "oid ".toList ∧ c ∉ "sha256:".toList ∧ c ∉ "size ".toList := by
    rcases hc with rfl | rfl <;> decide +kernel
  have hhex : c ∉ p.oid.toHexString.toList := fun hmem => by
    have hrange := mem_toHexString hmem
    rcases hc with rfl | rfl <;> exact absurd hrange (by decide)
  have hdigit : c ∉ (decimalText p.size.toNat).toList := fun hmem => by
    have hrange := mem_decimalText hmem
    rcases hc with rfl | rfl <;> exact absurd hrange (by decide)
  obtain ⟨hversion, hoid, hscheme, hsize⟩ := hfixed
  simp only [pointerLines, LfsOid.display, String.toList_append, List.forall_mem_cons, List.mem_append, not_or]
  exact ⟨hversion, ⟨hoid, hscheme, hhex⟩, ⟨hsize, hdigit⟩, List.forall_mem_nil _⟩

theorem lastAfter_pointerLines (p : LfsPointer) :
    lastAfter "oid ".toList (pointerLines p) = some p.oid.display.toList ∧
    lastAfter "size ".toList (pointerLines p) = some (decimalText p.size.toNat).toList := by
  have hsplit : pointerLines p = [] ++ ["oid ".toList ++ p.oid.display.toList] ++
      ["size ".toList ++ (decimalText p.size.toNat).toList] := rfl
  have hoid : ("size ".toList ++ (decimalText p.size.toNat).toList).dropPrefix? "oid ".toList = none := rfl
  rw [hsplit]
  constructor
  · rw [lastAfter_concat, hoid, lastAfter_concat, dropPrefix?_eq_some.mpr rfl, Option.none_or, Option.some_or]
  · rw [lastAfter_concat, dropPrefix?_eq_some.mpr rfl, Option.some_or]

theorem parsePointer_writePointer (p : LfsPointer) :
    parsePointer (utf8 (writePointer p)) = some p := by
  have hlines : textLines (writePointer p).toList = versionLine.toList :: pointerLines p := by
    rw [toList_writePointer]
    exact textLines_lines fun line hline =>
      ⟨lineEnd_notMem (Or.inl rfl) line hline, lineEnd_notMem (Or.inr rfl) line hline⟩
  obtain ⟨hoid, hsize⟩ := lastAfter_pointerLines p
  refine parsePointer_eq_some_iff.mpr ⟨_, _, fromUtf8_utf8 _, hlines, ?_, ?_⟩
  · rw [hoid, Option.bind_some, parseOidText, String.ofList_toList, fromStr_display]
    rfl
  · rw [hsize, Option.bind_some, parseSizeText, String.ofList_toList]
    exact parseU64_decimal p.size

/-- **Pointers and oids round-trip.** -/
theorem pointer_roundTrip :
    (∀ p : LfsPointer, parsePointer (utf8 (writePointer p)) = some p) ∧
    (∀ oid : LfsOid, LfsOid.fromStr oid.display = .ok oid) ∧
    (∀ (W : Type) (format : Format W) (oid : LfsOid),
      LfsOid.deserialize format (LfsOid.serialize format oid) = .ok oid) ∧
    ∀ (blob : Bytes) (p : LfsPointer), parsePointer blob = some p → parsePointer (utf8 (writePointer p)) = some p :=
  ⟨parsePointer_writePointer, fromStr_display, fun _ => deserialize_serialize, fun _ p _ =>
    parsePointer_writePointer p⟩

/-- Lines that end in CR LF, upper-case digits, a plus sign, an extension, and an oid and a size
that are given twice. -/
def untidyLines : List (List Char) :=
  [versionLine.toList, "oid sha256:ab".toList, "size 1".toList, "ext-0-case sha256:00".toList,
    "oid sha256:".toList ++ List.replicate 64 'A', "size +7".toList]

def untidyBlob : Bytes := utf8 (String.ofList (untidyLines.flatMap (· ++ ['\r', '\n'])))

def untidyPointer : LfsPointer := { oid := ⟨List.replicate 32 0xAA, by decide⟩, size := 7 }

theorem parsePointer_untidyBlob : parsePointer untidyBlob = some untidyPointer := by
  refine parsePointer_eq_some_iff.mpr ⟨_, untidyLines.tail, fromUtf8_utf8 _, ?_, ?_, ?_⟩
  · rw [String.toList_ofList]
    decide +kernel
  · decide +kernel
  · decide +kernel

theorem writePointer_untidyPointer : parsePointer untidyBlob = some untidyPointer ∧
    parsePointer (utf8 (writePointer untidyPointer)) = some untidyPointer :=
  ⟨parsePointer_untidyBlob, pointer_roundTrip.2.2.2 untidyBlob untidyPointer parsePointer_untidyBlob⟩

end Mizzle.Lfs
