import Mizzle.Backend.GitCli.Ingest
import Mizzle.Backend.Types
import Mizzle.Lib.Decimal
import Mizzle.Lib.Results
import Mizzle.Lib.Text
import Mizzle.Lib.Utf8

/-!
# Tree diffs of the git command-line backend

`tree_diff_sync` of `mizzle/src/backend/fs_git_cli.rs`, with `run_git`: the output of
`git diff-tree -r --raw -z`, converted to a `String`, trimmed, and cut at its NULs.

Trimming takes nothing, as the output begins with a colon and ends with a NUL, and the scanner gives
back every record it is given (`readEntries_render`). The conversion replaces what is not UTF-8, and
what has been converted has UTF-8 paths only (`isSome_path_of_readEntries`): the diff is exact
exactly if every path is UTF-8 (`treeDiffSync_iff`).
-/

namespace Mizzle.GitCli

open Lib

/-! ### Running git -/

structure GitOutput where
  success : Bool
  stdout : Bytes
  stderr : Bytes

inductive TreeDiffError where
  | spawning (args : List String)
  | failed (args : List String) (stderr : String)
  | header (bytes : Bytes)
  | oid (hex : String)
deriving DecidableEq

/-- `{:?}` of arguments in which nothing has to be escaped. -/
def debugArgs (args : List String) : String :=
  "[" ++ ", ".intercalate (args.map fun arg => "\"" ++ arg ++ "\"") ++ "]"

/-- The text of an error, without the repository's path, the exit status, and what the system and
the parsers add to it. -/
def TreeDiffError.message : TreeDiffError → String
  | .spawning args => "spawning git " ++ debugArgs args
  | .failed args stderr => "git " ++ debugArgs args ++ " failed:\n" ++ stderr
  | .header _ => "invalid utf-8 sequence"
  | .oid _ => "parsing diff-tree oid"

/-- `run_git`: the output, as a trimmed string. -/
def runGit (git : List String → Option GitOutput) (args : List String) :
    Except TreeDiffError String :=
  match git args with
  | none => .error (.spawning args)
  | some output =>
    if output.success then .ok (String.ofList (trim (fromUtf8Lossy output.stdout).toList))
    else .error (.failed args (fromUtf8Lossy output.stderr))

/-! ### The scanner -/

/-- `u32::from_str_radix(_, 8)`: at least one digit, after an optional plus sign. -/
def fromStrRadix8 (text : Bytes) : Option UInt32 :=
  let digits := if text.head? = some 43 then text.tail else text
  if digits = [] then none
  else (radixNumber 8 digits).bind fun n => if n < 2 ^ 32 then some (UInt32.ofNat n) else none

/-- The entry of the five words of a header. -/
def entryOf (modeL modeR oidL oidR status : String) (path : Bytes) :
    Except TreeDiffError RefDiffEntry :=
  let (change, oidHex, modeStr) := match status.toList.head? with
    | some 'A' => (RefDiffChange.added, oidR, modeR)
    | some 'D' => (RefDiffChange.removed, oidL, modeL)
    | _ => (RefDiffChange.modified, oidR, modeR)
  match ObjectId.fromHex (utf8 oidHex) with
  | none => .error (.oid oidHex)
  | some oid => .ok { path, change, mode := (fromStrRadix8 (utf8 modeStr)).getD 0, oid }

/-- One record. Words that are missing have defaults. -/
def parseEntry (header : String) (path : Bytes) : Except TreeDiffError RefDiffEntry :=
  let header := match header.toList with
    | ':' :: rest => rest
    | cs => cs
  let parts := (splitWords isWhitespace header).map String.ofList
  entryOf (parts.getD 0 "0") (parts.getD 1 "0") (parts.getD 2 "") (parts.getD 3 "") (parts.getD 4 "M") path

/-- The loop over the bytes: a header and a path, each up to a NUL. A header without one ends it, a
path without one is the rest. -/
def readEntries (bytes : Bytes) : Except TreeDiffError (List RefDiffEntry) :=
  match _h : cut 0 bytes with
  | (_, none) => .ok []
  | (header, some rest) =>
    match fromUtf8 header with
    | none => .error (.header header)
    | some header => do
      let entry ← parseEntry header (cut 0 rest).1
      let entries ← readEntries ((cut 0 rest).2.getD [])
      return entry :: entries
termination_by bytes.length
decreasing_by
  have := length_cut _h
  have := length_cut_snd_le 0 rest
  omega

def emptyTree : String := "4b825dc642cb6eb9a060e54bf8d69288fbee4904"

def diffTreeArgs (parentTree : Option ObjectId) (childTree : ObjectId) : List String :=
  ["diff-tree", "-r", "--raw", "-z", (parentTree.map ObjectId.toHexString).getD emptyTree, childTree.toHexString]

/-- `tree_diff_sync`. -/
def treeDiffSync (git : List String → Option GitOutput) (parentTree : Option ObjectId)
    (childTree : ObjectId) : Except TreeDiffError RefDiff := do
  let stdout ← runGit git (diffTreeArgs parentTree childTree)
  let entries ← readEntries (utf8 stdout)
  return ⟨entries⟩

/-! ### What git prints -/

/-- What happened to a path. A change of the type of an entry has a letter of its own. -/
inductive ChangeKind where
  | added (mode : UInt32) (oid : ObjectId)
  | removed (mode : UInt32) (oid : ObjectId)
  | modified (oldMode : UInt32) (oldOid : ObjectId) (mode : UInt32) (oid : ObjectId) (typeChange : Bool)

structure TreeChange where
  path : Bytes
  kind : ChangeKind

def ChangeKind.entry (path : Bytes) : ChangeKind → RefDiffEntry
  | added mode oid => { path, change := .added, mode, oid }
  | removed mode oid => { path, change := .removed, mode, oid }
  | modified _ _ mode oid _ => { path, change := .modified, mode, oid }

def TreeChange.entry (c : TreeChange) : RefDiffEntry := c.kind.entry c.path

/-- `:mode mode oid oid status`. -/
def headerText (oldMode mode : UInt32) (oldOid oid : ObjectId) (status : Char) : String :=
  ":" ++ octalText 6 oldMode.toNat ++ " " ++ octalText 6 mode.toNat ++ " " ++ oldOid.toHexString ++
    " " ++ oid.toHexString ++ " " ++
    String.ofList [status]

def ChangeKind.header : ChangeKind → String
  | added mode oid => headerText 0 mode .null oid 'A'
  | removed mode oid => headerText mode 0 oid .null 'D'
  | modified oldMode oldOid mode oid typeChange => headerText oldMode mode oldOid oid (if typeChange then 'T' else 'M')

/-- The output of `git diff-tree -r --raw -z`. -/
def render (changes : List TreeChange) : Bytes :=
  changes.flatMap fun c => utf8 c.kind.header ++ 0 :: (c.path ++ [0])

/-! ### Headers -/

theorem toList_toHexString (oid : ObjectId) :
    ∀ c ∈ oid.toHexString.toList, isHexDigit c = true := by
  intro c hc
  rw [ObjectId.toHexString, String.toList_ofList] at hc
  simpa [isHexDigit] using range_of_mem_map_hexEncode hc

theorem isWhitespace_toHexString (oid : ObjectId) :
    ∀ c ∈ oid.toHexString.toList, isWhitespace c = false :=
  fun c hc => (not_isWhitespace_hex (toList_toHexString oid c hc)).1

theorem utf8_toHexString (oid : ObjectId) : utf8 oid.toHexString = oid.toHex :=
  utf8_ofList_map_hexEncode oid.bytes

theorem toHexString_ne_nil (oid : ObjectId) : oid.toHexString.toList ≠ [] := by
  have hlength := ObjectId.length_of_fromHex oid.fromHex_toHex
  rw [ObjectId.toHexString, String.toList_ofList]
  refine List.ne_nil_of_length_pos ?_
  rw [List.length_map, hlength]
  decide

theorem isWhitespace_octalText {width n : Nat} :
    ∀ c ∈ (octalText width n).toList, isWhitespace c = false := by
  intro c hc
  have hdigit := mem_octalText hc
  simp only [isWhitespace, Bool.or_eq_false_iff, Bool.and_eq_false_iff, decide_eq_false_iff_not, beq_eq_false_iff_ne]
  omega

theorem fromStrRadix8_octalText (mode : UInt32) :
    fromStrRadix8 (utf8 (octalText 6 mode.toNat)) = some mode := by
  have hne : utf8 (octalText 6 mode.toNat) ≠ [] := utf8_ne_nil (octalText_ne_nil (by decide) _)
  rw [fromStrRadix8, if_neg (head?_octalText_ne (by decide)), if_neg hne, radixNumber_octalText, Option.bind_some,
    if_pos mode.toNat_lt, UInt32.ofNat_toNat]

theorem toList_headerText (oldMode mode : UInt32) (oldOid oid : ObjectId) (status : Char) :
    (headerText oldMode mode oldOid oid status).toList =
      ':' :: ((octalText 6 oldMode.toNat).toList ++ ' ' ::
      ((octalText 6 mode.toNat).toList ++ ' ' ::
        (oldOid.toHexString.toList ++ ' ' :: (oid.toHexString.toList ++ [' ', status])))) := by
  simp [headerText]

theorem splitWords_header (oldMode mode : UInt32) (oldOid oid : ObjectId) {status : Char}
    (hstatus : isWhitespace status = false) :
    ∃ rest, (headerText oldMode mode oldOid oid status).toList = ':' :: rest ∧
      (splitWords isWhitespace rest).map String.ofList =
      [octalText 6 oldMode.toNat, octalText 6 mode.toNat, oldOid.toHexString, oid.toHexString,
        String.ofList [status]] := by
  have hoctal : ∀ n, (octalText 6 n).toList ≠ [] := octalText_ne_nil (by decide)
  refine ⟨_, toList_headerText oldMode mode oldOid oid status, ?_⟩
  rw [splitWords_append (hoctal _) isWhitespace_octalText rfl, splitWords_append (hoctal _) isWhitespace_octalText rfl,
    splitWords_append (toHexString_ne_nil oldOid) (isWhitespace_toHexString oldOid) rfl,
    splitWords_append (toHexString_ne_nil oid) (isWhitespace_toHexString oid) rfl,
    splitWords_word (List.cons_ne_nil _ _) (List.forall_mem_singleton.mpr hstatus)]
  simp only [List.map_cons, List.map_nil, String.ofList_toList]

theorem parseEntry_headerText (oldMode mode : UInt32) (oldOid oid : ObjectId) {status : Char}
    (hstatus : isWhitespace status = false) (path : Bytes) :
    parseEntry (headerText oldMode mode oldOid oid status) path =
      entryOf (octalText 6 oldMode.toNat) (octalText 6 mode.toNat)
      oldOid.toHexString oid.toHexString (String.ofList [status]) path := by
  obtain ⟨rest, hrest, hwords⟩ := splitWords_header oldMode mode oldOid oid hstatus
  rw [parseEntry, hrest]
  simp only [hwords, List.getD_cons_zero, List.getD_cons_succ]

theorem parseEntry_header (kind : ChangeKind) (path : Bytes) :
    parseEntry kind.header path = .ok (kind.entry path) := by
  cases kind with
  | added mode oid =>
    rw [ChangeKind.header, parseEntry_headerText _ _ _ _ (by decide)]
    simp [entryOf, utf8_toHexString, fromStrRadix8_octalText, ChangeKind.entry]
  | removed mode oid =>
    rw [ChangeKind.header, parseEntry_headerText _ _ _ _ (by decide)]
    simp [entryOf, utf8_toHexString, fromStrRadix8_octalText, ChangeKind.entry]
  | modified oldMode oldOid mode oid typeChange =>
    rw [ChangeKind.header, parseEntry_headerText _ _ _ _ (by cases typeChange <;> decide)]
    cases typeChange <;> simp [entryOf, utf8_toHexString, fromStrRadix8_octalText, ChangeKind.entry]

theorem range_of_mem_headerText {oldMode mode : UInt32} {oldOid oid : ObjectId} {status : Char}
    (hstatus : 0 < status.toNat ∧ status.toNat < 128) :
    ∀ c ∈ (headerText oldMode mode oldOid oid status).toList, 0 < c.toNat ∧ c.toNat < 128 := by
  intro c hc
  have hoctal : ∀ n, c ∈ (octalText 6 n).toList → 0 < c.toNat ∧ c.toNat < 128 := fun n hc => by
    have := mem_octalText hc
    omega
  have hhex : ∀ oid : ObjectId, c ∈ oid.toHexString.toList → 0 < c.toNat ∧ c.toNat < 128 := fun oid hc => by
    have hdigit := toList_toHexString oid c hc
    simp only [isHexDigit, Bool.or_eq_true, Bool.and_eq_true, decide_eq_true_eq] at hdigit
    omega
  have hspace : 0 < ' '.toNat ∧ ' '.toNat < 128 := by decide
  rw [toList_headerText] at hc
  simp only [List.mem_cons, List.mem_append, List.not_mem_nil, or_false] at hc
  rcases hc with rfl | hc | rfl | hc | rfl | hc | rfl | hc | rfl | rfl
  · decide
  · exact hoctal _ hc
  · exact hspace
  · exact hoctal _ hc
  · exact hspace
  · exact hhex _ hc
  · exact hspace
  · exact hhex _ hc
  · exact hspace
  · exact hstatus

theorem nul_notMem_header (kind : ChangeKind) : (0 : UInt8) ∉ utf8 kind.header := by
  have hrange : ∀ c ∈ kind.header.toList, 0 < c.toNat ∧ c.toNat < 128 := by
    cases kind with
    | added => exact range_of_mem_headerText (by decide)
    | removed => exact range_of_mem_headerText (by decide)
    | modified _ _ _ _ typeChange => exact range_of_mem_headerText (by cases typeChange <;> decide)
  intro hmem
  have hbytes := utf8_ofList_ascii fun c hc => (hrange c hc).2
  rw [String.ofList_toList] at hbytes
  rw [hbytes] at hmem
  obtain ⟨c, hc, hzero⟩ := List.mem_map.mp hmem
  have hc := hrange c hc
  have hval := congrArg UInt8.toNat hzero
  rw [UInt8.toNat_ofNat_of_lt' (show c.toNat < 256 by omega)] at hval
  change c.toNat = 0 at hval
  omega

/-! ### Records -/

theorem readEntries_record (kind : ChangeKind) {path : Bytes} (hpath : (0 : UInt8) ∉ path)
    (rest : Bytes) :
    readEntries (utf8 kind.header ++ 0 :: (path ++ 0 :: rest)) =
      (readEntries rest).map (kind.entry path :: ·) := by
  rw [readEntries, cut_append (nul_notMem_header kind)]
  simp only [cut_append hpath, fromUtf8_utf8, parseEntry_header, Option.getD_some]
  cases readEntries rest <;> rfl

/-- **The scanner reads back what is printed.** -/
theorem readEntries_render {changes : List TreeChange}
    (hpaths : ∀ c ∈ changes, (0 : UInt8) ∉ c.path) :
    readEntries (render changes) = .ok (changes.map TreeChange.entry) := by
  induction changes with
  | nil =>
    rw [readEntries]
    rfl
  | cons c changes ih =>
    obtain ⟨hpath, hpaths⟩ := List.forall_mem_cons.mp hpaths
    have hrender : render (c :: changes) = utf8 c.kind.header ++
      0 :: (c.path ++ 0 :: render changes) := by simp [render]
    rw [hrender, readEntries_record c.kind hpath, ih hpaths]
    rfl

theorem path_of_parseEntry {header : String} {path : Bytes} {entry : RefDiffEntry}
    (h : parseEntry header path = .ok entry) : entry.path = path := by
  rw [parseEntry, entryOf] at h
  dsimp only at h
  split at h
  · cases h
  · rw [← Except.ok.inj h]

theorem isSome_path_of_readEntries {bytes : Bytes} (hbytes : (fromUtf8 bytes).isSome)
    {entries : List RefDiffEntry} (h : readEntries bytes = .ok entries) :
    ∀ e ∈ entries, (fromUtf8 e.path).isSome := by
  induction hn : bytes.length using Nat.strong_induction_on generalizing bytes entries with
  | _ n ih =>
    rw [readEntries] at h
    split at h
    · obtain rfl := Except.ok.inj h
      simp
    · rename_i header rest hcut
      obtain rfl := cut_eq_some hcut
      obtain ⟨-, hrest⟩ := isSome_fromUtf8_cut (by decide) hbytes
      -- the path, and what follows it
      obtain ⟨hpath, hafter⟩ : (fromUtf8 (cut 0 rest).1).isSome ∧ (fromUtf8 ((cut 0 rest).2.getD [])).isSome := by
        cases hcut' : cut 0 rest with
        | mk path after =>
          cases after with
          | none =>
            rw [cut_eq_none hcut']
            exact ⟨hrest, rfl⟩
          | some after =>
            rw [cut_eq_some hcut'] at hrest
            exact isSome_fromUtf8_cut (by decide) hrest
      split at h
      · cases h
      · obtain ⟨entry, hentry, h⟩ := bind_eq_ok_iff.mp h
        obtain ⟨entries', hentries, h⟩ := bind_eq_ok_iff.mp h
        obtain rfl := Except.ok.inj h
        have hshorter : ((cut 0 rest).2.getD []).length < n := by
          have := length_cut hcut
          have := length_cut_snd_le 0 rest
          omega
        refine List.forall_mem_cons.mpr ⟨?_, ih _ hshorter hafter hentries rfl⟩
        rw [path_of_parseEntry hentry]
        exact hpath

/-! ### The conversion -/

theorem exists_text_render {changes : List TreeChange}
    (hpaths : ∀ c ∈ changes, (fromUtf8 c.path).isSome) :
    ∃ s : String, render changes = utf8 s ∧
      (s.toList = [] ∨ ∃ middle, s.toList = ':' :: middle ++ ['\x00']) := by
  induction changes with
  | nil => exact ⟨"", rfl, Or.inl rfl⟩
  | cons c changes ih =>
    obtain ⟨hpath, hpaths⟩ := List.forall_mem_cons.mp hpaths
    obtain ⟨rest, hrest, hends⟩ := ih hpaths
    obtain ⟨path, hpath⟩ := isSome_fromUtf8_iff.mp hpath
    obtain ⟨header, hheader⟩ : ∃ header, c.kind.header.toList = ':' :: header := by
      cases c.kind <;> exact ⟨_, toList_headerText _ _ _ _ _⟩
    have hnul : utf8 "\x00" = [0] := by decide +kernel
    refine ⟨c.kind.header ++ ("\x00" ++ (path ++ ("\x00" ++ rest))), ?_, Or.inr ?_⟩
    · simp only [utf8_append, ← hpath, ← hrest, hnul]
      simp [render]
    · rcases hends with hnil | ⟨middle, hmiddle⟩
      · exact ⟨header ++ '\x00' :: path.toList, by simp [hheader, hnil]⟩
      · exact ⟨header ++ '\x00' :: (path.toList ++ '\x00' :: ':' :: middle), by simp [hheader, hmiddle]⟩

theorem trim_of_render {s : String}
    (h : s.toList = [] ∨ ∃ middle, s.toList = ':' :: middle ++ ['\x00']) :
    trim s.toList = s.toList := by
  rcases h with h | ⟨middle, h⟩
  · rw [h]
    rfl
  · rw [h]
    exact trimMatches_of_ends (by decide) (by decide) middle

/-- **The diff is exact if and only if every path is UTF-8.** -/
theorem treeDiffSync_iff {git : List String → Option GitOutput} {parentTree : Option ObjectId}
    {childTree : ObjectId} {changes : List TreeChange} {stderr : Bytes}
    (hgit : git (diffTreeArgs parentTree childTree) =
      some { success := true, stdout := render changes, stderr })
    (hpaths : ∀ c ∈ changes, c.path ≠ [] ∧ (0 : UInt8) ∉ c.path) :
    treeDiffSync git parentTree childTree = .ok ⟨changes.map TreeChange.entry⟩ ↔ ∀ c ∈ changes,
      (fromUtf8 c.path).isSome := by
  have hrun : runGit git (diffTreeArgs parentTree childTree) =
      .ok (String.ofList (trim (fromUtf8Lossy (render changes)).toList)) := by
    rw [runGit, hgit]
    rfl
  constructor
  · intro h c hc
    obtain ⟨stdout, -, h⟩ := bind_eq_ok_iff.mp h
    obtain ⟨entries, hentries, h⟩ := bind_eq_ok_iff.mp h
    have htext := isSome_path_of_readEntries (isSome_fromUtf8_iff.mpr ⟨stdout, rfl⟩) hentries
    obtain rfl : entries = changes.map TreeChange.entry := congrArg RefDiff.entries (Except.ok.inj h)
    have hpath := htext c.entry (List.mem_map_of_mem hc)
    have hentry : c.entry.path = c.path := by
      rw [TreeChange.entry]
      cases c.kind <;> rfl
    rwa [hentry] at hpath
  · intro hvalid
    obtain ⟨s, hs, hends⟩ := exists_text_render hvalid
    rw [treeDiffSync, hrun, hs, fromUtf8Lossy_utf8, trim_of_render hends, String.ofList_toList]
    show (do let entries ← readEntries (utf8 s); return (⟨entries⟩ : RefDiff)) = _
    rw [← hs, readEntries_render fun c hc => (hpaths c hc).2]
    rfl

def printing (changes : List TreeChange) : List String → Option GitOutput :=
  fun _ => some { success := true, stdout := render changes, stderr := [] }

/-- A file with a space at either end of its name, and a link that became a file. -/
def sampleChanges : List TreeChange :=
  [⟨utf8 " a ", .added 0o100644 (.fill 1)⟩, ⟨utf8 "b", .modified 0o120000 (.fill 2) 0o100755 (.fill 3) true⟩]

theorem treeDiffSync_sample : treeDiffSync (printing sampleChanges) none (.fill 4) = .ok ⟨[
    { path := utf8 " a ", change := .added, mode := 0o100644, oid := .fill 1 },
    { path := utf8 "b", change := .modified, mode := 0o100755, oid := .fill 3 }]⟩ :=
  (@treeDiffSync_iff (printing sampleChanges) none (.fill 4) sampleChanges [] rfl
    (by decide +kernel)).mpr (by decide +kernel)

/-- The name `é` in ISO 8859-1. -/
def latinChanges : List TreeChange := [⟨[0xE9], .added 0o100644 (.fill 1)⟩]

/-- A name that is not UTF-8 is replaced. -/
theorem treeDiffSync_latin :
    treeDiffSync (printing latinChanges) none (.fill 4) =
      .ok ⟨[{ path := [0xEF, 0xBF, 0xBD], change := .added, mode := 0o100644, oid := .fill 1 }]⟩ ∧
    treeDiffSync (printing latinChanges) none (.fill 4) ≠ .ok ⟨latinChanges.map TreeChange.entry⟩ := by
  decide +kernel

end Mizzle.GitCli
