import Mizzle.Lib.Traverse
import Mizzle.Proto.Fetch

/-!
# Fetch requests as lines

The lines of a fetch request as a client writes them, and what they mean (`ArgLine`). Whatever the
order of the lines, as long as wants, haves and want-refs keep theirs, both parsers of
`mizzle-proto/src/fetch.rs` read the arguments back (`fetchArgs_survive`).

A line is read by its keyword, and no keyword is the beginning of another one with its space or
dash. In a v1 request the flags are capability words on the first want line; words that are not
among them are ignored.
-/

namespace Mizzle.Fetch

open Lib

inductive Flag where
  | done
  | thinPack
  | noProgress
  | includeTag
  | ofsDelta
  | waitForDone
deriving DecidableEq

namespace Flag

def word : Flag → Bytes
  | done => utf8 "done"
  | thinPack => utf8 "thin-pack"
  | noProgress => utf8 "no-progress"
  | includeTag => utf8 "include-tag"
  | ofsDelta => utf8 "ofs-delta"
  | waitForDone => utf8 "wait-for-done"

def all : List Flag := [done, thinPack, noProgress, includeTag, ofsDelta, waitForDone]

/-- The flags that a v1 client sends as capabilities. -/
def capabilities : List Flag := [thinPack, noProgress, includeTag, ofsDelta]

end Flag

namespace FetchArgs

def flag (args : FetchArgs) : Flag → Bool
  | .done => args.done
  | .thinPack => args.thinPack
  | .noProgress => args.noProgress
  | .includeTag => args.includeTag
  | .ofsDelta => args.ofsDelta
  | .waitForDone => args.waitForDone

def setFlag (args : FetchArgs) : Flag → FetchArgs
  | .done => { args with done := true }
  | .thinPack => { args with thinPack := true }
  | .noProgress => { args with noProgress := true }
  | .includeTag => { args with includeTag := true }
  | .ofsDelta => { args with ofsDelta := true }
  | .waitForDone => { args with waitForDone := true }

theorem ext_fields {a b : FetchArgs} (hwant : a.want = b.want) (hwantRefs : a.wantRefs = b.wantRefs)
    (hhaves : a.haves = b.haves) (hdeepen : a.deepen = b.deepen) (hfilter : a.filter = b.filter)
    (hflag : ∀ f, a.flag f = b.flag f) : a = b := by
  cases a
  cases b
  simp only [FetchArgs.mk.injEq]
  exact ⟨hwant, hwantRefs, hhaves, hflag .done, hflag .thinPack, hflag .noProgress, hflag .includeTag, hflag .ofsDelta,
    hflag .waitForDone, hdeepen, hfilter⟩

end FetchArgs

inductive ArgLine where
  | want (oid : ObjectId)
  | haves (oid : ObjectId)
  | wantRef (name : String)
  | deepen (depth : UInt32)
  | filter (spec : String)
  | flag (f : Flag)
deriving DecidableEq

namespace ArgLine

/-- The line without its newline. -/
def text : ArgLine → Bytes
  | want oid => utf8 "want " ++ oid.toHex
  | haves oid => utf8 "have " ++ oid.toHex
  | wantRef name => utf8 "want-ref " ++ utf8 name
  | deepen depth => utf8 "deepen " ++ decimal depth.toNat
  | filter spec => utf8 "filter " ++ utf8 spec
  | flag f => f.word

/-- What the line adds to the arguments. -/
def apply (args : FetchArgs) : ArgLine → FetchArgs
  | want oid => { args with want := args.want ++ [oid] }
  | haves oid => { args with haves := args.haves ++ [oid] }
  | wantRef name => { args with wantRefs := args.wantRefs ++ [name] }
  | deepen depth => { args with deepen := some depth }
  | filter spec => { args with filter := some spec }
  | flag f => args.setFlag f

def want? : ArgLine → Option ObjectId
  | want oid => some oid
  | _ => none

def haves? : ArgLine → Option ObjectId
  | haves oid => some oid
  | _ => none

def wantRef? : ArgLine → Option String
  | wantRef name => some name
  | _ => none

def deepen? : ArgLine → Option UInt32
  | deepen depth => some depth
  | _ => none

def filter? : ArgLine → Option String
  | filter spec => some spec
  | _ => none

end ArgLine

/-! ### Lines under the parsers -/

variable {limits : ProtocolLimits} {args : FetchArgs} {words : List Bytes} {f : Flag}
  {oid : ObjectId} {line : ArgLine} {before after : List ArgLine}

theorem pushWant_toHex (hlimit : args.want.length + 1 ≤ limits.maxWants) :
    pushWant limits args oid.toHex = .ok { args with want := args.want ++ [oid] } := by
  rw [pushWant, parseOid, ObjectId.fromHex_toHex, checkLimit, if_pos hlimit]
  rfl

theorem pushHave_toHex (hlimit : args.haves.length + 1 ≤ limits.maxHaves) :
    pushHave limits args oid.toHex = .ok { args with haves := args.haves ++ [oid] } := by
  rw [pushHave, parseOid, ObjectId.fromHex_toHex, checkLimit, if_pos hlimit]
  rfl

theorem parseU32_decimal (n : Nat) :
    parseU32 (decimal n) = if n < 2 ^ 32 then some (UInt32.ofNat n) else none := by
  rw [parseU32, if_neg (head?_decimal_ne (by decide)), if_neg (decimal_ne_nil n),
    decimalNumber_decimal, Option.bind_some]

theorem setDeepen_decimal {depth : UInt32} (hdepth : depth ≠ 0) :
    setDeepen args (decimal depth.toNat) = .ok { args with deepen := some depth } := by
  rw [setDeepen, parseU32_decimal, if_pos depth.toNat_lt, UInt32.ofNat_toNat, parseText, decimal, fromUtf8_utf8]
  exact if_neg hdepth

theorem setFilter_utf8 (spec : String) :
    setFilter args (utf8 spec) = .ok { args with filter := some spec } := by
  rw [setFilter, parseText, fromUtf8_utf8]
  rfl

/-- There is room for the line. -/
def Room (limits : ProtocolLimits) (args : FetchArgs) : ArgLine → Prop
  | .want _ => args.want.length + 1 ≤ limits.maxWants
  | .haves _ => args.haves.length + 1 ≤ limits.maxHaves
  | .wantRef _ => args.wantRefs.length + 1 ≤ limits.maxWantRefs
  | .deepen depth => depth ≠ 0
  | _ => True

/-- **One line of a v2 request.** -/
theorem readArg_text (h : Room limits args line) :
    readArg limits args line.text = .ok (line.apply args) := by
  cases line with
  | want oid =>
    have hread : readArg limits args (ArgLine.want oid).text = pushWant limits args oid.toHex := rfl
    rw [hread, pushWant_toHex h]
    rfl
  | haves oid =>
    have hread : readArg limits args (ArgLine.haves oid).text = pushHave limits args oid.toHex := rfl
    rw [hread, pushHave_toHex h]
    rfl
  | wantRef name =>
    have hread : readArg limits args (ArgLine.wantRef name).text = (do
        let refname ← parseText (utf8 name)
        checkLimit (args.wantRefs.length + 1) limits.maxWantRefs "want-ref lines"
        return { args with wantRefs := args.wantRefs ++ [refname] }) := rfl
    have hroom : args.wantRefs.length + 1 ≤ limits.maxWantRefs := h
    rw [hread, parseText, fromUtf8_utf8, checkLimit, if_pos hroom]
    rfl
  | deepen depth =>
    have hread : readArg limits args (ArgLine.deepen depth).text = setDeepen args (decimal depth.toNat) := rfl
    rw [hread, setDeepen_decimal h]
    rfl
  | filter spec =>
    have hread : readArg limits args (ArgLine.filter spec).text = setFilter args (utf8 spec) := rfl
    rw [hread, setFilter_utf8]
    rfl
  | flag f => cases f <;> rfl

theorem readLineV1_want (rest : Bytes) :
    readLineV1 limits args (utf8 "want " ++ rest) =
      match cut 32 rest with
      | (hex, none) => pushWant limits args hex
      | (hex, some caps) => (pushWant limits args hex).map ((caps.splitOn 32).foldl readCapability) :=
  rfl

theorem space_notMem_toHex (oid : ObjectId) : (32 : UInt8) ∉ oid.toHex :=
  fun hmem => (ObjectId.mem_toHex hmem).2.2 rfl

/-- The lines that a v1 request may have. -/
def ArgLine.inV1 : ArgLine → Bool
  | wantRef _ | flag _ => false
  | _ => true

/-- **One line of a v1 request**, other than the first want. -/
theorem readLineV1_text {line : ArgLine} (hline : line.inV1) (h : Room limits args line) :
    readLineV1 limits args line.text = .ok (line.apply args) := by
  cases line with
  | want oid =>
    rw [ArgLine.text, readLineV1_want, cut_of_notMem (space_notMem_toHex oid)]
    exact pushWant_toHex h
  | haves oid =>
    have hread : readLineV1 limits args (ArgLine.haves oid).text = pushHave limits args oid.toHex := rfl
    rw [hread, pushHave_toHex h]
    rfl
  | deepen depth =>
    have hread : readLineV1 limits args (ArgLine.deepen depth).text = setDeepen args (decimal depth.toNat) := rfl
    rw [hread, setDeepen_decimal h]
    rfl
  | filter spec =>
    have hread : readLineV1 limits args (ArgLine.filter spec).text = setFilter args (utf8 spec) := rfl
    rw [hread, setFilter_utf8]
    rfl
  | wantRef name => simp [ArgLine.inV1] at hline
  | flag f => simp [ArgLine.inV1] at hline

/-! ### The lines of a request -/

theorem want_foldl (lines : List ArgLine) (args : FetchArgs) :
    (lines.foldl ArgLine.apply args).want = args.want ++ lines.filterMap ArgLine.want? := by
  refine foldl_filterMap (fun args line => ?_) lines args
  cases line with
  | flag f => cases f <;> simp [ArgLine.apply, ArgLine.want?, FetchArgs.setFlag]
  | _ => simp [ArgLine.apply, ArgLine.want?]

theorem haves_foldl (lines : List ArgLine) (args : FetchArgs) :
    (lines.foldl ArgLine.apply args).haves = args.haves ++ lines.filterMap ArgLine.haves? := by
  refine foldl_filterMap (fun args line => ?_) lines args
  cases line with
  | flag f => cases f <;> simp [ArgLine.apply, ArgLine.haves?, FetchArgs.setFlag]
  | _ => simp [ArgLine.apply, ArgLine.haves?]

theorem wantRefs_foldl (lines : List ArgLine) (args : FetchArgs) :
    (lines.foldl ArgLine.apply args).wantRefs = args.wantRefs ++
      lines.filterMap ArgLine.wantRef? := by
  refine foldl_filterMap (fun args line => ?_) lines args
  cases line with
  | flag f => cases f <;> simp [ArgLine.apply, ArgLine.wantRef?, FetchArgs.setFlag]
  | _ => simp [ArgLine.apply, ArgLine.wantRef?]

theorem deepen_foldl (lines : List ArgLine) (args : FetchArgs) :
    (lines.foldl ArgLine.apply args).deepen =
      (lines.filterMap ArgLine.deepen?).getLast?.or args.deepen := by
  refine foldl_getLast? (fun args line => ?_) lines args
  cases line with
  | flag f => cases f <;> simp [ArgLine.apply, ArgLine.deepen?, FetchArgs.setFlag]
  | _ => simp [ArgLine.apply, ArgLine.deepen?]

theorem filter_foldl (lines : List ArgLine) (args : FetchArgs) :
    (lines.foldl ArgLine.apply args).filter =
      (lines.filterMap ArgLine.filter?).getLast?.or args.filter := by
  refine foldl_getLast? (fun args line => ?_) lines args
  cases line with
  | flag f => cases f <;> simp [ArgLine.apply, ArgLine.filter?, FetchArgs.setFlag]
  | _ => simp [ArgLine.apply, ArgLine.filter?]

theorem flag_foldl (f : Flag) (lines : List ArgLine) (args : FetchArgs) :
    (lines.foldl ArgLine.apply args).flag f = (args.flag f || lines.any (· = .flag f)) := by
  have hstep : ∀ (args : FetchArgs) (line : ArgLine), (line.apply args).flag f =
      (args.flag f || decide (line = .flag f)) := by
    intro args line
    cases line with
    | flag g => cases f <;> cases g <;> simp [ArgLine.apply, FetchArgs.flag, FetchArgs.setFlag]
    | _ => cases f <;> simp [ArgLine.apply, FetchArgs.flag]
  exact @foldl_any _ _ _ (FetchArgs.flag · f) _ hstep lines args

/-- There is room for all lines. -/
structure Fits (limits : ProtocolLimits) (args : FetchArgs) (lines : List ArgLine) : Prop where
  want : args.want.length + (lines.filterMap ArgLine.want?).length ≤ limits.maxWants
  haves : args.haves.length + (lines.filterMap ArgLine.haves?).length ≤ limits.maxHaves
  wantRefs : args.wantRefs.length + (lines.filterMap ArgLine.wantRef?).length ≤ limits.maxWantRefs
  deepen : ∀ depth, .deepen depth ∈ lines → depth ≠ 0

theorem Fits.room {lines : List ArgLine} (h : Fits limits args (line :: lines)) :
    Room limits args line := by
  obtain ⟨hwant, hhaves, hwantRefs, hdeepen⟩ := h
  cases line with
  | want oid =>
    simp only [List.filterMap_cons, ArgLine.want?, List.length_cons] at hwant
    exact le_trans (by omega) hwant
  | haves oid =>
    simp only [List.filterMap_cons, ArgLine.haves?, List.length_cons] at hhaves
    exact le_trans (by omega) hhaves
  | wantRef name =>
    simp only [List.filterMap_cons, ArgLine.wantRef?, List.length_cons] at hwantRefs
    exact le_trans (by omega) hwantRefs
  | deepen depth => exact hdeepen depth List.mem_cons_self
  | filter spec => exact trivial
  | flag f => exact trivial

theorem Fits.left (h : Fits limits args (before ++ after)) : Fits limits args before := by
  obtain ⟨hwant, hhaves, hwantRefs, hdeepen⟩ := h
  simp only [List.filterMap_append, List.length_append] at hwant hhaves hwantRefs
  exact ⟨by omega, by omega, by omega, fun depth hmem => hdeepen depth (List.mem_append_left _ hmem)⟩

theorem Fits.drop (h : Fits limits args (before ++ after)) :
    Fits limits (before.foldl ArgLine.apply args) after := by
  obtain ⟨hwant, hhaves, hwantRefs, hdeepen⟩ := h
  simp only [List.filterMap_append, List.length_append] at hwant hhaves hwantRefs
  refine ⟨?_, ?_, ?_, fun depth hmem => hdeepen depth (List.mem_append_right _ hmem)⟩
  · rw [want_foldl, List.length_append]
    omega
  · rw [haves_foldl, List.length_append]
    omega
  · rw [wantRefs_foldl, List.length_append]
    omega

theorem foldlM_text {read : FetchArgs → ArgLine → Except FetchError FetchArgs}
    {lines : List ArgLine}
    (hread : ∀ args, ∀ line ∈ lines, Room limits args line → read args line = .ok (line.apply args))
    (hfits : Fits limits args lines) :
    lines.foldlM read args = .ok (lines.foldl ArgLine.apply args) := by
  induction lines generalizing args with
  | nil => rfl
  | cons line lines ih =>
    rw [List.foldlM_cons, hread args line List.mem_cons_self hfits.room, List.foldl_cons]
    have hrest : Fits limits args ([line] ++ lines) := hfits
    exact ih (fun args l hl => hread args l (List.mem_cons_of_mem _ hl)) hrest.drop

/-! ### Arrangements -/

/-- The lines of a v1 request, apart from the capabilities and `done`. -/
def FetchArgs.linesV1 (args : FetchArgs) : List ArgLine :=
  args.want.map .want ++ args.haves.map .haves ++ args.deepen.toList.map .deepen ++ args.filter.toList.map .filter

/-- The lines of a v2 request. -/
def FetchArgs.lines (args : FetchArgs) : List ArgLine :=
  args.linesV1 ++ args.wantRefs.map .wantRef ++ (Flag.all.filter args.flag).map .flag

/-- Another order of the lines, in which wants, haves and want-refs keep theirs. -/
structure Arranged (canonical lines : List ArgLine) : Prop where
  perm : lines.Perm canonical
  want : lines.filterMap ArgLine.want? = canonical.filterMap ArgLine.want?
  haves : lines.filterMap ArgLine.haves? = canonical.filterMap ArgLine.haves?
  wantRefs : lines.filterMap ArgLine.wantRef? = canonical.filterMap ArgLine.wantRef?

theorem filterMap_linesV1 (args : FetchArgs) :
    args.linesV1.filterMap ArgLine.want? = args.want ∧
      args.linesV1.filterMap ArgLine.haves? = args.haves ∧
      args.linesV1.filterMap ArgLine.wantRef? = [] ∧ args.linesV1.filterMap ArgLine.deepen? = args.deepen.toList ∧
      args.linesV1.filterMap ArgLine.filter? = args.filter.toList := by
  simp [FetchArgs.linesV1, List.filterMap_map, Function.comp_def, ArgLine.want?, ArgLine.haves?, ArgLine.wantRef?,
    ArgLine.deepen?, ArgLine.filter?]

theorem filterMap_lines (args : FetchArgs) :
    args.lines.filterMap ArgLine.want? = args.want ∧
      args.lines.filterMap ArgLine.haves? = args.haves ∧
      args.lines.filterMap ArgLine.wantRef? = args.wantRefs ∧ args.lines.filterMap ArgLine.deepen? =
        args.deepen.toList ∧
      args.lines.filterMap ArgLine.filter? = args.filter.toList := by
  obtain ⟨hwant, hhaves, hwantRefs, hdeepen, hfilter⟩ := filterMap_linesV1 args
  simp [FetchArgs.lines, hwant, hhaves, hwantRefs, hdeepen, hfilter, List.filterMap_map,
    Function.comp_def, ArgLine.want?,
    ArgLine.haves?, ArgLine.wantRef?, ArgLine.deepen?, ArgLine.filter?]

theorem mem_lines_flag : .flag f ∈ args.lines ↔ args.flag f = true := by
  have hall : f ∈ Flag.all := by cases f <;> decide
  simp [FetchArgs.lines, FetchArgs.linesV1, hall]

theorem mem_lines_deepen {depth : UInt32} :
    .deepen depth ∈ args.lines ↔ args.deepen = some depth := by
  simp [FetchArgs.lines, FetchArgs.linesV1]

theorem eq_toList_of_perm {α : Type} {o : Option α} {xs : List α} (h : xs.Perm o.toList) :
    xs = o.toList := by
  cases o with
  | none => exact List.perm_nil.mp h
  | some a => exact List.perm_singleton.mp h

/-- The arguments are within the limits, and the depth is one that git sends. -/
structure Allowed (limits : ProtocolLimits) (args : FetchArgs) : Prop where
  want : args.want.length ≤ limits.maxWants
  haves : args.haves.length ≤ limits.maxHaves
  wantRefs : args.wantRefs.length ≤ limits.maxWantRefs
  deepen : args.deepen ≠ some 0

theorem Arranged.fits {canonical lines : List ArgLine} (h : Arranged canonical lines)
    (hfits : Fits limits {} canonical) : Fits limits {} lines := by
  refine ⟨?_, ?_, ?_, fun depth hmem => hfits.deepen depth (h.perm.mem_iff.mp hmem)⟩
  · rw [h.want]
    exact hfits.want
  · rw [h.haves]
    exact hfits.haves
  · rw [h.wantRefs]
    exact hfits.wantRefs

theorem Arranged.foldl_eq {canonical lines : List ArgLine} (h : Arranged canonical lines)
    {depth : Option UInt32} (hdepth : canonical.filterMap ArgLine.deepen? = depth.toList)
    {spec : Option String} (hspec : canonical.filterMap ArgLine.filter? = spec.toList) :
    lines.foldl ArgLine.apply {} = canonical.foldl ArgLine.apply {} := by
  have hdeepen : lines.filterMap ArgLine.deepen? = depth.toList :=
    eq_toList_of_perm (hdepth ▸ h.perm.filterMap ArgLine.deepen?)
  have hfilter : lines.filterMap ArgLine.filter? = spec.toList :=
    eq_toList_of_perm (hspec ▸ h.perm.filterMap ArgLine.filter?)
  refine FetchArgs.ext_fields ?_ ?_ ?_ ?_ ?_ fun f => ?_
  · rw [want_foldl, want_foldl, h.want]
  · rw [wantRefs_foldl, wantRefs_foldl, h.wantRefs]
  · rw [haves_foldl, haves_foldl, h.haves]
  · rw [deepen_foldl, deepen_foldl, hdeepen, hdepth]
  · rw [filter_foldl, filter_foldl, hfilter, hspec]
  · rw [flag_foldl, flag_foldl, h.perm.any_eq]

theorem Allowed.fits_lines (h : Allowed limits args) : Fits limits {} args.lines := by
  obtain ⟨hwant, hhaves, hwantRefs, -⟩ := filterMap_lines args
  refine ⟨?_, ?_, ?_, fun depth hmem heq => h.deepen (heq ▸ mem_lines_deepen.mp hmem)⟩
  · rw [hwant]
    exact (Nat.zero_add _).trans_le h.want
  · rw [hhaves]
    exact (Nat.zero_add _).trans_le h.haves
  · rw [hwantRefs]
    exact (Nat.zero_add _).trans_le h.wantRefs

theorem foldl_lines (args : FetchArgs) : args.lines.foldl ArgLine.apply {} = args := by
  obtain ⟨hwant, hhaves, hwantRefs, hdeepen, hfilter⟩ := filterMap_lines args
  refine FetchArgs.ext_fields ?_ ?_ ?_ ?_ ?_ fun f => ?_
  · rw [want_foldl, hwant, List.nil_append]
  · rw [wantRefs_foldl, hwantRefs, List.nil_append]
  · rw [haves_foldl, hhaves, List.nil_append]
  · rw [deepen_foldl, hdeepen]
    cases args.deepen <;> rfl
  · rw [filter_foldl, hfilter]
    cases args.filter <;> rfl
  · rw [flag_foldl, Bool.eq_iff_iff, ← mem_lines_flag]
    cases f <;> simp [FetchArgs.flag]

def dataLines (lines : List Bytes) : List PacketLine := (lines.map (· ++ [10])).map .data

/-- **A v2 request is read back.** -/
theorem readFetchArgs_arranged {lines : List ArgLine} (h : Arranged args.lines lines)
    (hargs : Allowed limits args) (header : List Bytes) (rest : List PacketLine) :
    readFetchArgs limits (header.map .data ++
      .delimiter :: (dataLines (lines.map ArgLine.text) ++ .flush :: rest)) = .ok args := by
  have hread : lines.foldlM (fun args line => readArg limits args line.text) {} = .ok (lines.foldl ArgLine.apply {}) :=
    foldlM_text (fun _ _ _ hroom => readArg_text hroom) (h.fits hargs.fits_lines)
  rw [dataLines, readFetchArgs_lines limits header _ (Or.inl rfl), List.foldlM_map, List.foldlM_map]
  simp only [Receive.stripNewline_append]
  obtain ⟨-, -, -, hdeepen, hfilter⟩ := filterMap_lines args
  rw [hread, h.foldl_eq hdeepen hfilter, foldl_lines]

/-! ### Version 1 -/

/-- The lines of a v1 request; the first want has the capability words. -/
def linesV1 (words : List Bytes) : List ArgLine → List Bytes
  | [] => []
  | .want oid :: lines => ((ArgLine.want oid).text ++ words.flatMap (32 :: ·)) :: lines.map ArgLine.text
  | line :: lines => line.text :: linesV1 words lines

theorem linesV1_append {before : List ArgLine} (hbefore : ∀ line ∈ before, line.want? = none)
    (oid : ObjectId) (after : List ArgLine) : linesV1 words (before ++ .want oid :: after) =
      before.map ArgLine.text ++ ((ArgLine.want oid).text ++ words.flatMap (32 :: ·)) :: after.map ArgLine.text := by
  induction before with
  | nil => rfl
  | cons line before ih =>
    obtain ⟨hline, hrest⟩ := List.forall_mem_cons.mp hbefore
    rw [List.cons_append, List.map_cons, List.cons_append, ← ih hrest]
    cases line with
    | want oid' => cases hline
    | _ => rfl

theorem splitOn_words {word : Bytes} (h : ∀ w ∈ word :: words, (32 : UInt8) ∉ w) :
    (word ++ words.flatMap (32 :: ·)).splitOn 32 = word :: words := by
  induction words generalizing word with
  | nil =>
    rw [List.flatMap_nil, List.append_nil]
    exact List.splitOn_eq_singleton (h word List.mem_cons_self)
  | cons next words ih =>
    obtain ⟨hword, hrest⟩ := List.forall_mem_cons.mp h
    rw [List.flatMap_cons, List.cons_append, List.splitOn_append_cons_self, ih hrest, List.splitOn_eq_singleton hword]
    rfl

theorem readLineV1_first (hwords : ∀ w ∈ words, (32 : UInt8) ∉ w)
    (hroom : Room limits args (.want oid)) :
    readLineV1 limits args ((ArgLine.want oid).text ++ words.flatMap (32 :: ·)) =
      .ok (words.foldl readCapability ((ArgLine.want oid).apply args)) := by
  cases words with
  | nil =>
    rw [List.flatMap_nil, List.append_nil]
    exact readLineV1_text rfl hroom
  | cons word words =>
    rw [ArgLine.text, List.append_assoc, readLineV1_want, List.flatMap_cons, List.cons_append,
      cut_append (space_notMem_toHex oid)]
    simp only [splitOn_words hwords, pushWant_toHex hroom]
    rfl

theorem word_inj {f g : Flag} : f.word = g.word ↔ f = g := by
  cases f <;> cases g <;> simp [Flag.word]

theorem flag_setFlag (args : FetchArgs) (f g : Flag) :
    (args.setFlag g).flag f = (args.flag f || decide (g = f)) := by
  cases f <;> cases g <;> simp [FetchArgs.flag, FetchArgs.setFlag]

theorem readCapability_cases (args : FetchArgs) (word : Bytes) :
    (∃ f ∈ Flag.capabilities, word = f.word ∧ readCapability args word = args.setFlag f) ∨
      (∀ f ∈ Flag.capabilities, word ≠ f.word) ∧ readCapability args word = args := by
  unfold readCapability
  split
  · exact Or.inl ⟨.ofsDelta, by decide, by assumption, rfl⟩
  split
  · exact Or.inl ⟨.thinPack, by decide, by assumption, rfl⟩
  split
  · exact Or.inl ⟨.noProgress, by decide, by assumption, rfl⟩
  split
  · exact Or.inl ⟨.includeTag, by decide, by assumption, rfl⟩
  · refine Or.inr ⟨fun f hf => ?_, rfl⟩
    cases f with
    | done => exact absurd hf (by decide)
    | waitForDone => exact absurd hf (by decide)
    | _ => assumption

theorem flag_readCapability (hf : f ∈ Flag.capabilities) (args : FetchArgs) (word : Bytes) :
    (readCapability args word).flag f = (args.flag f || decide (word = f.word)) := by
  rcases readCapability_cases args word with ⟨g, -, rfl, hread⟩ | ⟨hother, hread⟩
  · rw [hread, flag_setFlag, decide_eq_decide.mpr word_inj]
  · rw [hread, decide_eq_false (hother f hf), Bool.or_false]

/-- What differs is flags that are capabilities. -/
structure SameRequest (args args' : FetchArgs) : Prop where
  want : args'.want = args.want
  haves : args'.haves = args.haves
  wantRefs : args'.wantRefs = args.wantRefs
  deepen : args'.deepen = args.deepen
  filter : args'.filter = args.filter
  flag : ∀ f ∉ Flag.capabilities, args'.flag f = args.flag f

theorem sameRequest_setFlag (hf : f ∈ Flag.capabilities) (args : FetchArgs) :
    SameRequest args (args.setFlag f) := by
  refine ⟨?_, ?_, ?_, ?_, ?_, fun g hg => ?_⟩
  iterate 5 cases f <;> rfl
  have hne : f ≠ g := fun heq => hg (heq ▸ hf)
  rw [flag_setFlag, decide_eq_false hne, Bool.or_false]

theorem sameRequest_foldl (words : List Bytes) (args : FetchArgs) :
    SameRequest args (words.foldl readCapability args) := by
  induction words generalizing args with
  | nil => exact ⟨rfl, rfl, rfl, rfl, rfl, fun _ _ => rfl⟩
  | cons word words ih =>
    have hrest := ih (readCapability args word)
    rcases readCapability_cases args word with ⟨f, hf, -, hread⟩ | ⟨-, hread⟩
    · rw [hread] at hrest
      rw [List.foldl_cons, hread]
      have hset := sameRequest_setFlag hf args
      exact ⟨hrest.want.trans hset.want, hrest.haves.trans hset.haves, hrest.wantRefs.trans hset.wantRefs,
        hrest.deepen.trans hset.deepen, hrest.filter.trans hset.filter,
        fun g hg => (hrest.flag g hg).trans (hset.flag g hg)⟩
    · rw [hread] at hrest
      rw [List.foldl_cons, hread]
      exact hrest

theorem flag_capabilities (hf : f ∈ Flag.capabilities) (words : List Bytes) (args : FetchArgs) :
    (words.foldl readCapability args).flag f = (args.flag f || words.any (· = f.word)) :=
  @foldl_any _ _ _ (FetchArgs.flag · f) _ (flag_readCapability hf) words args

theorem apply_setFlag (args : FetchArgs) (line : ArgLine) (f : Flag) :
    line.apply (args.setFlag f) = (line.apply args).setFlag f := by
  cases line with
  | flag g => cases f <;> cases g <;> rfl
  | _ => cases f <;> rfl

theorem apply_readCapability (args : FetchArgs) (line : ArgLine) (word : Bytes) :
    line.apply (readCapability args word) = readCapability (line.apply args) word := by
  rcases readCapability_cases args word with ⟨f, hf, rfl, hread⟩ | ⟨hother, hread⟩
  · rcases readCapability_cases (line.apply args) f.word with ⟨g, -, hword, hread'⟩ | ⟨hother, -⟩
    · rw [hread, hread', apply_setFlag, word_inj.mp hword]
    · exact absurd rfl (hother f hf)
  · rcases readCapability_cases (line.apply args) word with ⟨g, hg, hword, -⟩ | ⟨-, hread'⟩
    · exact absurd hword (hother g hg)
    · rw [hread, hread']

theorem foldl_apply_capabilities (words : List Bytes) (lines : List ArgLine) (args : FetchArgs) :
    lines.foldl ArgLine.apply (words.foldl readCapability args) =
      words.foldl readCapability (lines.foldl ArgLine.apply args) :=
  List.foldl_hom (words.foldl readCapability) fun _ line =>
    (List.foldl_hom (ArgLine.apply · line) fun args word => (apply_readCapability args line word).symm).symm

theorem SameRequest.fits {args' : FetchArgs} (h : SameRequest args args') {lines : List ArgLine}
    (hfits : Fits limits args lines) : Fits limits args' lines := by
  refine ⟨?_, ?_, ?_, hfits.deepen⟩
  · rw [h.want]
    exact hfits.want
  · rw [h.haves]
    exact hfits.haves
  · rw [h.wantRefs]
    exact hfits.wantRefs

theorem foldlM_linesV1 {first : ObjectId} (hwords : ∀ w ∈ words, (32 : UInt8) ∉ w)
    (hbefore : ∀ line ∈ before, line.want? = none)
    (hlines : ∀ line ∈ before ++ .want first :: after, line.inV1)
    (hfits : Fits limits args (before ++ .want first :: after)) :
    (linesV1 words (before ++ .want first :: after)).foldlM (readLineV1 limits) args =
      .ok (words.foldl readCapability ((before ++ .want first :: after).foldl ArgLine.apply args)) := by
  obtain ⟨hbefore', hline⟩ := List.forall_mem_append.mp hlines
  obtain ⟨-, hafter⟩ := List.forall_mem_cons.mp hline
  have hstart : before.foldlM (fun args line => readLineV1 limits args line.text) args =
      .ok (before.foldl ArgLine.apply args) := by
    exact foldlM_text (fun _ line hmem => readLineV1_text (hbefore' line hmem)) hfits.left
  have hroom : Room limits (before.foldl ArgLine.apply args) (.want first) := hfits.drop.room
  have hrest : Fits limits args (before ++ [.want first] ++ after) := by
    rw [List.append_assoc]
    exact hfits
  have hend : after.foldlM (fun args line => readLineV1 limits args line.text)
      (words.foldl readCapability ((before ++ [ArgLine.want first]).foldl ArgLine.apply args)) =
        .ok (after.foldl ArgLine.apply (words.foldl readCapability
          ((before ++ [ArgLine.want first]).foldl ArgLine.apply args))) :=
    foldlM_text (fun _ line hmem => readLineV1_text (hafter line hmem)) ((sameRequest_foldl words _).fits hrest.drop)
  rw [foldl_apply_capabilities, ← List.foldl_append, List.append_assoc, List.singleton_append] at hend
  rw [linesV1_append hbefore, List.foldlM_append, List.foldlM_map, hstart]
  show List.foldlM (readLineV1 limits) (before.foldl ArgLine.apply args) (_ :: _) = _
  rw [List.foldlM_cons, readLineV1_first hwords hroom]
  rw [← List.foldlM_map, List.foldl_append] at hend
  exact hend

/-- What a client of version 1 can ask for. -/
structure SentV1 (args : FetchArgs) (words : List Bytes) : Prop where
  want : args.want ≠ []
  wantRefs : args.wantRefs = []
  waitForDone : args.waitForDone = false
  spaces : ∀ w ∈ words, (32 : UInt8) ∉ w
  capabilities : ∀ f ∈ Flag.capabilities, f.word ∈ words ↔ args.flag f = true

theorem mem_linesV1_inV1 (h : line ∈ args.linesV1) : line.inV1 := by
  simp only [FetchArgs.linesV1, List.mem_append, List.mem_map] at h
  rcases h with ((⟨oid, -, rfl⟩ | ⟨oid, -, rfl⟩) | ⟨depth, -, rfl⟩) | ⟨spec, -, rfl⟩
  all_goals rfl

theorem Allowed.fits_linesV1 (h : Allowed limits args) : Fits limits {} args.linesV1 := by
  obtain ⟨hwant, hhaves, hwantRefs, -⟩ := filterMap_linesV1 args
  refine ⟨?_, ?_, ?_, fun depth hmem => h.fits_lines.deepen depth ?_⟩
  · rw [hwant]
    exact (Nat.zero_add _).trans_le h.want
  · rw [hhaves]
    exact (Nat.zero_add _).trans_le h.haves
  · rw [hwantRefs]
    exact Nat.zero_le _
  · exact List.mem_append_left _ (List.mem_append_left _ hmem)

theorem foldl_linesV1 (h : SentV1 args words) :
    words.foldl readCapability (args.linesV1.foldl ArgLine.apply {}) =
      { args with done := false } := by
  obtain ⟨hwant, hhaves, hwantRefs, hdeepen, hfilter⟩ := filterMap_linesV1 args
  have hsame := sameRequest_foldl words (args.linesV1.foldl ArgLine.apply {})
  have hnoFlag : ∀ f, (args.linesV1.foldl ArgLine.apply {}).flag f = false := fun f => by
    have hnone : args.linesV1.any (· = .flag f) = false := by simp [FetchArgs.linesV1]
    rw [flag_foldl, hnone]
    cases f <;> rfl
  refine FetchArgs.ext_fields ?_ ?_ ?_ ?_ ?_ fun f => ?_
  · rw [hsame.want, want_foldl, hwant, List.nil_append]
  · rw [hsame.wantRefs, wantRefs_foldl, hwantRefs, h.wantRefs, List.nil_append]
  · rw [hsame.haves, haves_foldl, hhaves, List.nil_append]
  · rw [hsame.deepen, deepen_foldl, hdeepen]
    cases args.deepen <;> rfl
  · rw [hsame.filter, filter_foldl, hfilter]
    cases args.filter <;> rfl
  · by_cases hf : f ∈ Flag.capabilities
    · have hword := h.capabilities f hf
      have hflag : ({ args with done := false } : FetchArgs).flag f = args.flag f := by
        cases f with
        | done => exact absurd hf (by decide)
        | _ => rfl
      rw [flag_capabilities hf, hnoFlag, Bool.false_or, hflag, Bool.eq_iff_iff, ← hword]
      simp
    · rw [hsame.flag f hf, hnoFlag]
      cases f with
      | done => rfl
      | waitForDone => exact h.waitForDone.symm
      | _ => exact absurd (by decide) hf

/-- **A v1 request is read back.** -/
theorem readFetchArgsV1_arranged {lines : List ArgLine} (h : Arranged args.linesV1 lines)
    (hargs : Allowed limits args) (hsent : SentV1 args words) :
    readFetchArgsV1 limits (dataLines (linesV1 words lines) ++
      .flush :: dataLines (if args.done then [utf8 "done"] else [])) = .ok args := by
  obtain ⟨hwant, -, -, hdeepen, hfilter⟩ := filterMap_linesV1 args
  -- the first want, which has the capabilities
  obtain ⟨first, wants, hcons⟩ := List.exists_cons_of_ne_nil hsent.want
  obtain ⟨before, line, after, rfl, hbefore, hline, -⟩ :=
    List.filterMap_eq_cons_iff.mp (h.want.trans (hwant.trans hcons))
  obtain rfl : line = .want first := by
    cases line with
    | want oid => rw [Option.some.inj hline]
    | _ => cases hline
  have hread := foldlM_linesV1 hsent.spaces hbefore (fun line hmem => mem_linesV1_inV1 (h.perm.mem_iff.mp hmem))
    (h.fits hargs.fits_linesV1)
  rw [h.foldl_eq hdeepen hfilter, foldl_linesV1 hsent] at hread
  rw [readFetchArgsV1, dataLines, readArgsV1_lines, List.foldlM_map]
  simp only [Receive.stripNewline_append]
  rw [hread]
  have hset : ∀ done, args.done = done → { args with done := done } = args := by
    rintro _ rfl
    rfl
  cases hdone : args.done with
  | false => exact congrArg Except.ok (hset false hdone)
  | true =>
    have hlast : readDone { args with done := false } (dataLines [utf8 "done"]) = { args with done := true } := by
      rw [dataLines, List.map_singleton, List.map_singleton, readDone, Receive.stripNewline_append, if_pos rfl]
    exact congrArg Except.ok (hlast.trans (hset true hdone))

/-- **Fetch requests survive encoding**, in both versions of the protocol. -/
theorem fetchArgs_survive (limits : ProtocolLimits) (args : FetchArgs)
    (hargs : Allowed limits args) :
    (∀ lines, Arranged args.lines lines → ∀ (header : List Bytes) (rest : List PacketLine),
      readFetchArgs limits (header.map .data ++
        .delimiter :: (dataLines (lines.map ArgLine.text) ++ .flush :: rest)) = .ok args) ∧
    ∀ words, SentV1 args words → ∀ lines, Arranged args.linesV1 lines →
      readFetchArgsV1 limits (dataLines (linesV1 words lines) ++
        .flush :: dataLines (if args.done then [utf8 "done"] else [])) = .ok args :=
  ⟨fun _ h header rest => readFetchArgs_arranged h hargs header rest, fun _ hsent _ h =>
    readFetchArgsV1_arranged h hargs hsent⟩

/-- A fetch of two commits, with a depth and two flags. -/
def sampleArgs : FetchArgs :=
  { want := [.fill 1, .fill 2], haves := [.fill 3], deepen := some 5, done := true, ofsDelta := true }

/-- Its lines in two other orders. -/
def sampleLines : List ArgLine :=
  [.flag .done, .haves (.fill 3), .want (.fill 1), .deepen 5, .want (.fill 2), .flag .ofsDelta]

def sampleLinesV1 : List ArgLine := [.haves (.fill 3), .want (.fill 1), .deepen 5, .want (.fill 2)]

theorem fetchArgs_survive_sampleArgs :
    readFetchArgs {} ([utf8 "command=fetch"].map .data ++
      .delimiter :: (dataLines (sampleLines.map ArgLine.text) ++ [.flush])) =
        .ok sampleArgs ∧
      readFetchArgsV1 {} (dataLines (linesV1 [Flag.ofsDelta.word, utf8 "agent=git"] sampleLinesV1) ++
        .flush :: dataLines [utf8 "done"]) = .ok sampleArgs := by
  have hargs : Allowed {} sampleArgs := ⟨by decide, by decide, by decide, by decide⟩
  have hlines : Arranged sampleArgs.lines sampleLines := ⟨by decide, rfl, rfl, rfl⟩
  have hlinesV1 : Arranged sampleArgs.linesV1 sampleLinesV1 := ⟨by decide, rfl, rfl, rfl⟩
  have hsent : SentV1 sampleArgs [Flag.ofsDelta.word, utf8 "agent=git"] :=
    ⟨by decide, rfl, rfl, by decide +kernel, by decide +kernel⟩
  obtain ⟨hv2, hv1⟩ := fetchArgs_survive {} sampleArgs hargs
  exact ⟨hv2 _ hlines _ _, hv1 _ hsent _ hlinesV1⟩

end Mizzle.Fetch
