import Mizzle.Lib.Decimal
import Mizzle.Lib.Results
import Mizzle.Proto.Receive

/-!
# Fetch requests

`mizzle-proto/src/fetch.rs`: the parsers of the arguments of a fetch, for protocol v2 and for v1.
They read the packets that `gix_packetline` delivers; the end of the list is the end of the stream.

The v2 parser refuses every argument it does not know, and `shallow <oid>`, which a shallow clone
sends with every fetch, is one of them (`readFetchArgs_withShallow_iff`). The v1 parser ignores
unknown lines.
-/

namespace Mizzle.Fetch

open Lib

/-- `PacketLineRef`. -/
inductive PacketLine where
  | data (bytes : Bytes)
  | flush
  | delimiter
  | responseEnd
deriving DecidableEq

structure FetchArgs where
  want : List ObjectId := []
  wantRefs : List String := []
  haves : List ObjectId := []
  done : Bool := false
  thinPack : Bool := false
  noProgress : Bool := false
  includeTag : Bool := false
  ofsDelta : Bool := false
  waitForDone : Bool := false
  deepen : Option UInt32 := none
  filter : Option String := none
deriving DecidableEq

/-- `ProtocolLimits`, as far as the fetch parsers read it. -/
structure ProtocolLimits where
  maxWants : Nat := 100000
  maxHaves : Nat := 100000
  maxWantRefs : Nat := 10000

inductive FetchError where
  /-- The stream ends, with this context. -/
  | eof (context : String)
  | endOfResponse
  | unexpectedDelimiter
  /-- `ObjectId::from_hex` refused an oid. -/
  | invalidHex
  | limitExceeded (name : String) (count max : Nat)
  | invalidUtf8
  | invalidDeepen
  | deepenZero
  | unsupported (arg : Bytes)
  | unrecognised
deriving DecidableEq

/-- The texts that the parsers themselves fix; `unsupported` is followed by the argument. -/
def FetchError.message : FetchError → Option String
  | .eof context => some context
  | .endOfResponse => some "found end of response expected delimiter"
  | .unexpectedDelimiter => some "unexpected delimiter"
  | .limitExceeded name count max => some s!"too many {name} ({count} exceeds limit of {max})"
  | .deepenZero => some "deepen 0 is not valid"
  | .unsupported _ => some "unsupported fetch argument: "
  | .unrecognised => some "unrecognised fetch argument"
  | .invalidDeepen => some "invalid deepen value: "
  | .invalidHex | .invalidUtf8 => none

/-- `check_limit`. -/
def checkLimit (count max : Nat) (name : String) : Except FetchError Unit :=
  if count ≤ max then .ok () else .error (.limitExceeded name count max)

/-- `str::parse::<u32>`: at least one digit, after an optional plus sign. -/
def parseU32 (text : Bytes) : Option UInt32 :=
  let digits := if text.head? = some 43 then text.tail else text
  if digits = [] then none
  else (decimalNumber digits).bind fun n => if n < 2 ^ 32 then some (UInt32.ofNat n) else none

/-! ### Lines of both versions -/

def parseOid (hex : Bytes) : Except FetchError ObjectId :=
  match ObjectId.fromHex hex with
  | some oid => .ok oid
  | none => .error .invalidHex

def parseText (text : Bytes) : Except FetchError String :=
  match fromUtf8 text with
  | some s => .ok s
  | none => .error .invalidUtf8

def pushWant (limits : ProtocolLimits) (args : FetchArgs) (hex : Bytes) :
    Except FetchError FetchArgs := do
  let oid ← parseOid hex
  checkLimit (args.want.length + 1) limits.maxWants "want lines"
  return { args with want := args.want ++ [oid] }

def pushHave (limits : ProtocolLimits) (args : FetchArgs) (hex : Bytes) :
    Except FetchError FetchArgs := do
  let oid ← parseOid hex
  checkLimit (args.haves.length + 1) limits.maxHaves "have lines"
  return { args with haves := args.haves ++ [oid] }

def setDeepen (args : FetchArgs) (depth : Bytes) : Except FetchError FetchArgs := do
  let _ ← parseText depth
  match parseU32 depth with
  | none => .error .invalidDeepen
  | some n => if n = 0 then .error .deepenZero else return { args with deepen := some n }

def setFilter (args : FetchArgs) (spec : Bytes) : Except FetchError FetchArgs := do
  let spec ← parseText spec
  return { args with filter := some spec }

/-! ### Protocol v2 -/

/-- `skip_till_delimiter`: what comes after it. -/
def skipTillDelimiter : List PacketLine → Except FetchError (List PacketLine)
  | [] => .error (.eof "expected delimiter")
  | .responseEnd :: _ | .flush :: _ => .error .endOfResponse
  | .delimiter :: rest => .ok rest
  | .data _ :: rest => skipTillDelimiter rest

/-- One argument of a v2 request. -/
def readArg (limits : ProtocolLimits) (args : FetchArgs) (arg : Bytes) :
    Except FetchError FetchArgs :=
  if let some hex := (utf8 "want ").isPrefixOf? arg then pushWant limits args hex
  else if let some hex := (utf8 "have ").isPrefixOf? arg then pushHave limits args hex
  else if let some refname := (utf8 "want-ref ").isPrefixOf? arg then do
    let refname ← parseText refname
    checkLimit (args.wantRefs.length + 1) limits.maxWantRefs "want-ref lines"
    return { args with wantRefs := args.wantRefs ++ [refname] }
  else if let some depth := (utf8 "deepen ").isPrefixOf? arg then setDeepen args depth
  else if let some spec := (utf8 "filter ").isPrefixOf? arg then setFilter args spec
  else if (utf8 "deepen-since ").isPrefixOf arg || (utf8 "deepen-not ").isPrefixOf arg
      || (utf8 "deepen-relative").isPrefixOf arg then .error (.unsupported arg)
  else if arg = utf8 "done" then .ok { args with done := true }
  else if arg = utf8 "thin-pack" then .ok { args with thinPack := true }
  else if arg = utf8 "no-progress" then .ok { args with noProgress := true }
  else if arg = utf8 "include-tag" then .ok { args with includeTag := true }
  else if arg = utf8 "ofs-delta" then .ok { args with ofsDelta := true }
  else if arg = utf8 "wait-for-done" then .ok { args with waitForDone := true }
  else .error .unrecognised

/-- The loop of `read_fetch_args`, with what is left of the stream. -/
def readArgs (limits : ProtocolLimits) (args : FetchArgs) :
    List PacketLine → Except FetchError (FetchArgs × List PacketLine)
  | [] => .error (.eof "unexpected eof (missing flush packet?)")
  | .responseEnd :: rest | .flush :: rest => .ok (args, rest)
  | .delimiter :: _ => .error .unexpectedDelimiter
  | .data line :: rest =>
    match readArg limits args (Receive.stripNewline line) with
    | .ok args => readArgs limits args rest
    | .error e => .error e

/-- `read_fetch_args`, with what is left of the stream. -/
def readFetchArgsRest (limits : ProtocolLimits) (packets : List PacketLine) :
    Except FetchError (FetchArgs × List PacketLine) :=
  (skipTillDelimiter packets).bind (readArgs limits {})

def readFetchArgs (limits : ProtocolLimits) (packets : List PacketLine) :
    Except FetchError FetchArgs :=
  (readFetchArgsRest limits packets).map Prod.fst

/-! ### Protocol v1 -/

/-- A capability of the first want line; those not known are ignored. -/
def readCapability (args : FetchArgs) (cap : Bytes) : FetchArgs :=
  if cap = utf8 "ofs-delta" then { args with ofsDelta := true }
  else if cap = utf8 "thin-pack" then { args with thinPack := true }
  else if cap = utf8 "no-progress" then { args with noProgress := true }
  else if cap = utf8 "include-tag" then { args with includeTag := true }
  else args

/-- One line of a v1 request. Unknown lines are ignored. -/
def readLineV1 (limits : ProtocolLimits) (args : FetchArgs) (line : Bytes) :
    Except FetchError FetchArgs :=
  if let some rest := (utf8 "want ").isPrefixOf? line then
    match cut 32 rest with
    | (hex, none) => pushWant limits args hex
    | (hex, some caps) => (pushWant limits args hex).map ((caps.splitOn 32).foldl readCapability)
  else if let some hex := (utf8 "have ").isPrefixOf? line then pushHave limits args hex
  else if let some depth := (utf8 "deepen ").isPrefixOf? line then setDeepen args depth
  else if let some spec := (utf8 "filter ").isPrefixOf? line then setFilter args spec
  else .ok args

/-- The loop of `read_fetch_args_v1`, up to the flush packet. -/
def readArgsV1 (limits : ProtocolLimits) (args : FetchArgs) :
    List PacketLine → Except FetchError (FetchArgs × List PacketLine)
  | [] => .error (.eof "unexpected eof in v1 request body")
  | .flush :: rest => .ok (args, rest)
  | .data line :: rest =>
    match readLineV1 limits args (Receive.stripNewline line) with
    | .ok args => readArgsV1 limits args rest
    | .error e => .error e
  | _ :: rest => readArgsV1 limits args rest

/-- After the flush packet one line is looked at, for `done`. -/
def readDone (args : FetchArgs) : List PacketLine → FetchArgs
  | .data line :: _ => if Receive.stripNewline line = utf8 "done" then { args with done := true } else args
  | _ => args

def readFetchArgsV1 (limits : ProtocolLimits) (packets : List PacketLine) :
    Except FetchError FetchArgs :=
  (readArgsV1 limits {} packets).map fun (args, rest) => readDone args rest

/-! ### Lines in order -/

theorem skipTillDelimiter_lines (header : List Bytes) (rest : List PacketLine) :
    skipTillDelimiter (header.map .data ++ .delimiter :: rest) = .ok rest := by
  induction header with
  | nil => rfl
  | cons line header ih => exact ih

theorem readArgs_lines (limits : ProtocolLimits) (args : FetchArgs) (lines : List Bytes)
    {last : PacketLine} (hlast : last = .flush ∨ last = .responseEnd) (rest : List PacketLine) :
    readArgs limits args (lines.map .data ++ last :: rest) =
      (lines.foldlM (fun args line => readArg limits args (Receive.stripNewline line)) args).map
        (·, rest) := by
  induction lines generalizing args with
  | nil => rcases hlast with rfl | rfl <;> rfl
  | cons line lines ih =>
    rw [List.map_cons, List.cons_append, readArgs, List.foldlM_cons]
    cases readArg limits args (Receive.stripNewline line) with
    | error e => rfl
    | ok args => exact ih args

theorem readFetchArgs_lines (limits : ProtocolLimits) (header lines : List Bytes)
    {last : PacketLine} (hlast : last = .flush ∨ last = .responseEnd) (rest : List PacketLine) :
    readFetchArgs limits (header.map .data ++ .delimiter :: (lines.map .data ++ last :: rest)) =
      lines.foldlM (fun args line => readArg limits args (Receive.stripNewline line)) {} := by
  rw [readFetchArgs, readFetchArgsRest, skipTillDelimiter_lines, Except.bind,
    readArgs_lines limits {} lines hlast]
  cases lines.foldlM (fun args line => readArg limits args (Receive.stripNewline line)) {} <;> rfl

theorem readArgsV1_lines (limits : ProtocolLimits) (args : FetchArgs) (lines : List Bytes)
    (rest : List PacketLine) :
    readArgsV1 limits args (lines.map .data ++ .flush :: rest) =
      (lines.foldlM (fun args line => readLineV1 limits args (Receive.stripNewline line)) args).map (·, rest) := by
  induction lines generalizing args with
  | nil => rfl
  | cons line lines ih =>
    rw [List.map_cons, List.cons_append, readArgsV1, List.foldlM_cons]
    cases readLineV1 limits args (Receive.stripNewline line) with
    | error e => rfl
    | ok args => exact ih args

/-! ### Requests from shallow clones -/

/-- `shallow <oid>`, with or without a newline. -/
def ShallowLine (line : Bytes) : Prop :=
  ∃ oid : ObjectId, line = utf8 "shallow " ++ oid.toHex ∨ line = utf8 "shallow " ++ oid.toHex ++ [10]

/-- The second list is the first with shallow lines put in anywhere. -/
inductive WithShallow : List Bytes → List Bytes → Prop
  | nil : WithShallow [] []
  | keep (line : Bytes) {lines lines' : List Bytes} (h : WithShallow lines lines') :
    WithShallow (line :: lines) (line :: lines')
  | insert {line : Bytes} (hline : ShallowLine line) {lines lines' : List Bytes} (h : WithShallow lines lines') :
    WithShallow lines (line :: lines')

theorem WithShallow.eq_of_none {lines lines' : List Bytes} (h : WithShallow lines lines')
    (hnone : ∀ line ∈ lines', ¬ ShallowLine line) : lines' = lines := by
  induction h with
  | nil => rfl
  | keep line _ ih => rw [ih fun l hl => hnone l (List.mem_cons_of_mem _ hl)]
  | insert hline _ _ => exact absurd hline (hnone _ List.mem_cons_self)

theorem stripNewline_shallow {line : Bytes} (h : ShallowLine line) :
    ∃ rest, Receive.stripNewline line = utf8 "shallow " ++ rest := by
  obtain ⟨oid, rfl | rfl⟩ := h
  · refine ⟨oid.toHex, if_neg fun hlast => ?_⟩
    have hhex : oid.toHex.getLast? = some 10 := by
      have hne : oid.toHex ≠ [] := by
        intro hnil
        have hlength := ObjectId.length_of_fromHex oid.fromHex_toHex
        simp [hnil] at hlength
      rwa [List.getLast?_append_of_ne_nil _ hne] at hlast
    exact (ObjectId.mem_toHex (List.mem_of_getLast? hhex)).2.1 rfl
  · exact ⟨oid.toHex, by rw [Receive.stripNewline_append]⟩

theorem readArg_shallow (limits : ProtocolLimits) (args : FetchArgs) (rest : Bytes) :
    readArg limits args (utf8 "shallow " ++ rest) = .error .unrecognised := rfl

theorem readLineV1_shallow (limits : ProtocolLimits) (args : FetchArgs) (rest : Bytes) :
    readLineV1 limits args (utf8 "shallow " ++ rest) = .ok args := rfl

theorem foldlM_withShallow (limits : ProtocolLimits) {lines lines' : List Bytes}
    (h : WithShallow lines lines') (args : FetchArgs) :
    lines'.foldlM (fun args line => readLineV1 limits args (Receive.stripNewline line)) args =
      lines.foldlM (fun args line => readLineV1 limits args (Receive.stripNewline line)) args := by
  induction h generalizing args with
  | nil => rfl
  | keep line _ ih =>
    rw [List.foldlM_cons, List.foldlM_cons]
    exact congrArg _ (funext ih)
  | insert hline _ ih =>
    obtain ⟨rest, hrest⟩ := stripNewline_shallow hline
    rw [List.foldlM_cons, hrest, readLineV1_shallow]
    exact ih args

/-- **Only requests without `shallow` lines are served over v2.** An accepted request with shallow
lines put in among its arguments is accepted with the same result exactly if there is none of them,
while the result of a v1 request is never changed by them. -/
theorem readFetchArgs_withShallow_iff {limits : ProtocolLimits} {header lines lines' : List Bytes}
    {last : PacketLine} (hlast : last = .flush ∨ last = .responseEnd) {rest : List PacketLine}
    {args : FetchArgs}
    (hok : readFetchArgs limits (header.map .data ++
      .delimiter :: (lines.map .data ++ last :: rest)) = .ok args)
    (hins : WithShallow lines lines') :
    (readFetchArgs limits (header.map .data ++ .delimiter :: (lines'.map .data ++ last :: rest)) =
      .ok args ↔
      ∀ line ∈ lines', ¬ ShallowLine line) ∧
    readFetchArgsV1 limits (lines'.map .data ++ .flush :: rest) =
      readFetchArgsV1 limits (lines.map .data ++ .flush :: rest) := by
  refine ⟨⟨fun hok' line hline hshallow => ?_, fun hnone => ?_⟩, ?_⟩
  · have hrefused : ∀ args, readArg limits args (Receive.stripNewline line) = .error .unrecognised := by
      obtain ⟨text, htext⟩ := stripNewline_shallow hshallow
      exact fun args => htext ▸ readArg_shallow limits args text
    rw [readFetchArgs_lines limits header lines' hlast] at hok'
    exact foldlM_ne_ok hline hrefused {} args hok'
  · rw [hins.eq_of_none hnone]
    exact hok
  · rw [readFetchArgsV1, readFetchArgsV1, readArgsV1_lines, readArgsV1_lines, foldlM_withShallow limits hins]

/-- The arguments of a clone of commit `1`. -/
def cloneLines : List Bytes := [utf8 "want " ++ (ObjectId.fill 1).toHex ++ [10], utf8 "done\n"]

/-- The same from a clone that is shallow at commit `2`. -/
def shallowLines : List Bytes := (utf8 "shallow " ++ (ObjectId.fill 2).toHex) :: cloneLines

theorem withShallow_shallowLines : WithShallow cloneLines shallowLines :=
  .insert ⟨.fill 2, .inl rfl⟩ (.keep _ (.keep _ .nil))

theorem readFetchArgs_shallowLines :
    readFetchArgs {} ([utf8 "command=fetch"].map .data ++
      .delimiter :: (shallowLines.map .data ++ [.flush])) ≠
      .ok { want := [.fill 1], done := true } ∧
    readFetchArgsV1 {} (shallowLines.map .data ++ [.flush]) =
      readFetchArgsV1 {} (cloneLines.map .data ++ [.flush]) := by
  obtain ⟨hiff, hv1⟩ := @readFetchArgs_withShallow_iff {} [utf8 "command=fetch"] _ _ _ (Or.inl rfl) []
    { want := [.fill 1], done := true } (by decide +kernel) withShallow_shallowLines
  exact ⟨fun hok => hiff.mp hok _ List.mem_cons_self ⟨.fill 2, .inl rfl⟩, hv1⟩

/-- **A fetch from a shallow clone is refused.** The request is accepted without the `shallow` line;
the v1 parser accepts it with the line. -/
theorem shallow_refused :
    WithShallow cloneLines shallowLines ∧
    readFetchArgs {} ([utf8 "command=fetch"].map .data ++ .delimiter :: (cloneLines.map .data ++ [.flush])) =
      .ok { want := [.fill 1], done := true } ∧
    readFetchArgs {} ([utf8 "command=fetch"].map .data ++ .delimiter :: (shallowLines.map .data ++ [.flush])) =
      .error .unrecognised ∧
    readFetchArgsV1 {} (shallowLines.map .data ++ [.flush]) = .ok { want := [.fill 1] } := by
  refine ⟨withShallow_shallowLines, ?_, ?_, ?_⟩
  · decide +kernel
  · decide +kernel
  · decide +kernel

end Mizzle.Fetch
