import Mizzle.Lib.Framing
import Mizzle.Proto.FetchLines

/-!
# Commands and ls-refs requests

`mizzle-proto/src/command.rs` and `mizzle-proto/src/ls_refs.rs`: the first line of a v2 request, and
the arguments of `ls-refs`. The parsers read from a stream that may go on behind the request, so
they return what they leave unread; each of them takes one frame and nothing behind it.

`read_lsrefs_args` accepts the lines of `LsRefsLine` in any order and any number of times, and no
other requests (`readLsRefsArgs_iff`).
-/

namespace Mizzle.Upload

open Lib Fetch

/-- `ProtocolLimits`, as far as the parsers of upload-pack read it. -/
structure ProtocolLimits extends Fetch.ProtocolLimits where
  maxRefPrefixes : Nat := 1000

/-! ### Commands -/

inductive Command where
  | fetch
  | listRefs
  | empty
deriving DecidableEq

inductive CommandError where
  | eof
  | noData
  | expectedCommand
  | unrecognised (name : Bytes)
deriving DecidableEq

def CommandError.message : CommandError → String
  | .eof => "no line when expecting command"
  | .noData => "no data when expecting command"
  | .expectedCommand => "expected command"
  | .unrecognised name => s!"unrecognised command: {name}"

def readCommand : Reader PacketLine CommandError Command
  | [] => .error .eof
  | .flush :: rest => .ok (.empty, rest)
  | .delimiter :: _ | .responseEnd :: _ => .error .noData
  | .data line :: rest =>
    match (utf8 "command=").isPrefixOf? (Receive.stripNewline line) with
    | none => .error .expectedCommand
    | some name =>
      if name = utf8 "ls-refs" then .ok (.listRefs, rest)
      else if name = utf8 "fetch" then .ok (.fetch, rest)
      else .error (.unrecognised name)

/-! ### Arguments of ls-refs -/

structure ListRefsArgs where
  symrefs : Bool := false
  peel : Bool := false
  prefixes : List Bytes := []
  unborn : Bool := false
deriving DecidableEq

inductive LsRefsError where
  /-- What `read_lsrefs_args` has in common with `read_fetch_args`. -/
  | request (e : FetchError)
  | unrecognised
deriving DecidableEq

def LsRefsError.message : LsRefsError → Option String
  | .request e => e.message
  | .unrecognised => some "unrecognised lsrefs argument"

/-- One argument. -/
def readLsRefsArg (limits : ProtocolLimits) (args : ListRefsArgs) (arg : Bytes) :
    Except LsRefsError ListRefsArgs :=
  match (utf8 "ref-prefix ").isPrefixOf? arg with
  | some p => do
    (checkLimit (args.prefixes.length + 1) limits.maxRefPrefixes "ref-prefix lines").mapError .request
    return { args with prefixes := args.prefixes ++ [p] }
  | none =>
    if arg = utf8 "peel" then .ok { args with peel := true }
    else if arg = utf8 "symrefs" then .ok { args with symrefs := true }
    else if arg = utf8 "unborn" then .ok { args with unborn := true }
    else .error .unrecognised

/-- The loop of `read_lsrefs_args`. -/
def readLsRefsLoop (limits : ProtocolLimits) (args : ListRefsArgs) :
    Reader PacketLine LsRefsError ListRefsArgs
  | [] => .error (.request (.eof "unexpected eof (missing flush packet?)"))
  | .responseEnd :: rest | .flush :: rest => .ok (args, rest)
  | .delimiter :: _ => .error (.request .unexpectedDelimiter)
  | .data line :: rest =>
    match readLsRefsArg limits args (Receive.stripNewline line) with
    | .ok args => readLsRefsLoop limits args rest
    | .error e => .error e

/-- `skip_till_delimiter`, as a reader. -/
def skipHeader : Reader PacketLine FetchError Unit :=
  fun packets => (skipTillDelimiter packets).map ((), ·)

def readLsRefsArgs (limits : ProtocolLimits) : Reader PacketLine LsRefsError ListRefsArgs :=
  Reader.andThen (fun packets => (skipHeader packets).mapError .request) fun _ => readLsRefsLoop limits {}

/-! ### Frames -/

theorem framed_readCommand : Framed readCommand := by
  have hstep : ∀ (s : Unit) (t : PacketLine), TokenStep (fun _ : Unit => readCommand) s t := by
    intro s t
    cases t with
    | flush => exact .stop .empty fun _ => rfl
    | delimiter => exact .fail .noData fun _ => rfl
    | responseEnd => exact .fail .noData fun _ => rfl
    | data line =>
      cases hname : (utf8 "command=").isPrefixOf? (Receive.stripNewline line) with
      | none => exact .fail .expectedCommand fun _ => by rw [readCommand, hname]
      | some name =>
        by_cases hls : name = utf8 "ls-refs"
        · exact .stop .listRefs fun _ => by rw [readCommand, hname]; exact if_pos hls
        · by_cases hfetch : name = utf8 "fetch"
          · exact .stop .fetch fun _ => by rw [readCommand, hname]; exact (if_neg hls).trans (if_pos hfetch)
          · exact .fail (.unrecognised name) fun _ => by
              rw [readCommand, hname]
              exact (if_neg hls).trans (if_neg hfetch)
  exact framed_of_steps (fun _ => ⟨.eof, rfl⟩) hstep ()

theorem framed_skipHeader : Framed skipHeader := by
  refine framed_of_steps (p := fun _ : Unit => skipHeader)
    (fun _ => ⟨.eof "expected delimiter", rfl⟩) (fun _ t => ?_) ()
  cases t with
  | data line => exact .go () fun _ => rfl
  | delimiter => exact .stop () fun _ => rfl
  | flush => exact .fail .endOfResponse fun _ => rfl
  | responseEnd => exact .fail .endOfResponse fun _ => rfl

theorem framed_readLsRefsLoop (limits : ProtocolLimits) (args : ListRefsArgs) :
    Framed (readLsRefsLoop limits args) := by
  refine framed_of_steps (p := readLsRefsLoop limits) (fun _ => ⟨_, rfl⟩) (fun args t => ?_) args
  cases t with
  | data line =>
    cases hread : readLsRefsArg limits args (Receive.stripNewline line) with
    | error e => exact .fail e fun _ => by rw [readLsRefsLoop, hread]
    | ok args' => exact .go args' fun _ => by rw [readLsRefsLoop, hread]
  | delimiter => exact .fail _ fun _ => rfl
  | flush => exact .stop args fun _ => rfl
  | responseEnd => exact .stop args fun _ => rfl

theorem framed_readArgs (limits : Fetch.ProtocolLimits) (args : FetchArgs) :
    Framed (readArgs limits args) := by
  refine framed_of_steps (p := readArgs limits) (fun _ => ⟨_, rfl⟩) (fun args t => ?_) args
  cases t with
  | data line =>
    cases hread : readArg limits args (Receive.stripNewline line) with
    | error e => exact .fail e fun _ => by rw [readArgs, hread]
    | ok args' => exact .go args' fun _ => by rw [readArgs, hread]
  | delimiter => exact .fail _ fun _ => rfl
  | flush => exact .stop args fun _ => rfl
  | responseEnd => exact .stop args fun _ => rfl

theorem framed_readLsRefsArgs (limits : ProtocolLimits) : Framed (readLsRefsArgs limits) :=
  (framed_skipHeader.mapError _).bind fun _ => framed_readLsRefsLoop limits {}

theorem framed_readFetchArgsRest (limits : Fetch.ProtocolLimits) :
    Framed (readFetchArgsRest limits) := by
  have hreader : readFetchArgsRest limits = skipHeader.andThen fun _ => readArgs limits {} := by
    funext packets
    rw [readFetchArgsRest, Reader.andThen, skipHeader]
    cases skipTillDelimiter packets <;> rfl
  rw [hreader]
  exact framed_skipHeader.bind fun _ => framed_readArgs limits {}

/-! ### The lines of an ls-refs request -/

inductive LsRefsLine where
  | peel
  | symrefs
  | unborn
  | refsUnder (start : Bytes)
deriving DecidableEq

namespace LsRefsLine

/-- The line without its newline. -/
def text : LsRefsLine → Bytes
  | peel => utf8 "peel"
  | symrefs => utf8 "symrefs"
  | unborn => utf8 "unborn"
  | refsUnder start => utf8 "ref-prefix " ++ start

/-- What the line adds to the arguments. -/
def apply (args : ListRefsArgs) : LsRefsLine → ListRefsArgs
  | peel => { args with peel := true }
  | symrefs => { args with symrefs := true }
  | unborn => { args with unborn := true }
  | refsUnder start => { args with prefixes := args.prefixes ++ [start] }

def start? : LsRefsLine → Option Bytes
  | refsUnder start => some start
  | _ => none

end LsRefsLine

/-- The arguments that the lines stand for. -/
def ListRefsArgs.ofLines (lines : List LsRefsLine) : ListRefsArgs where
  symrefs := lines.any (· = .symrefs)
  peel := lines.any (· = .peel)
  prefixes := lines.filterMap LsRefsLine.start?
  unborn := lines.any (· = .unborn)

theorem prefixes_foldl (lines : List LsRefsLine) (args : ListRefsArgs) :
    (lines.foldl LsRefsLine.apply args).prefixes = args.prefixes ++
      lines.filterMap LsRefsLine.start? := by
  refine foldl_filterMap (fun args line => ?_) lines args
  cases line <;> simp [LsRefsLine.apply, LsRefsLine.start?]

theorem foldl_apply (lines : List LsRefsLine) :
    lines.foldl LsRefsLine.apply {} = .ofLines lines := by
  have hsymrefs := @foldl_any _ _ LsRefsLine.apply ListRefsArgs.symrefs (· = .symrefs)
    (fun args line => by cases line <;> simp [LsRefsLine.apply]) lines {}
  have hpeel := @foldl_any _ _ LsRefsLine.apply ListRefsArgs.peel (· = .peel)
    (fun args line => by cases line <;> simp [LsRefsLine.apply]) lines {}
  have hunborn := @foldl_any _ _ LsRefsLine.apply ListRefsArgs.unborn (· = .unborn)
    (fun args line => by cases line <;> simp [LsRefsLine.apply]) lines {}
  have hprefixes := prefixes_foldl lines {}
  generalize lines.foldl LsRefsLine.apply {} = args at *
  obtain ⟨symrefs, peel, prefixes, unborn⟩ := args
  rw [ListRefsArgs.ofLines, ListRefsArgs.mk.injEq]
  exact ⟨by simpa using hsymrefs, by simpa using hpeel, by simpa using hprefixes, by simpa using hunborn⟩

/-- **One argument**: it is read exactly if it is one of the lines and there is room for it. -/
theorem readLsRefsArg_iff {limits : ProtocolLimits} {args args' : ListRefsArgs} {arg : Bytes} :
    readLsRefsArg limits args arg = .ok args' ↔
      ∃ line : LsRefsLine, arg = line.text ∧ args' = line.apply args ∧
        (line.start?.isSome → args.prefixes.length + 1 ≤ limits.maxRefPrefixes) := by
  constructor
  · intro h
    rw [readLsRefsArg] at h
    split at h
    · rename_i p hp
      refine ⟨.refsUnder p, (List.isPrefixOf?_eq_some_iff_append_eq.mp hp).symm, ?_⟩
      obtain ⟨u, hlimit, hargs⟩ := bind_eq_ok_iff.mp h
      obtain rfl := Except.ok.inj hargs
      rw [mapError_eq_ok_iff, checkLimit] at hlimit
      split at hlimit
      · rename_i hroom
        exact ⟨rfl, fun _ => hroom⟩
      · cases hlimit
    · split at h
      · rename_i hpeel
        exact ⟨.peel, hpeel, (Except.ok.inj h).symm, fun hstart => Bool.noConfusion hstart⟩
      · split at h
        · rename_i hsymrefs
          exact ⟨.symrefs, hsymrefs, (Except.ok.inj h).symm, fun hstart => Bool.noConfusion hstart⟩
        · split at h
          · rename_i hunborn
            exact ⟨.unborn, hunborn, (Except.ok.inj h).symm, fun hstart => Bool.noConfusion hstart⟩
          · cases h
  · rintro ⟨line, rfl, rfl, hroom⟩
    cases line with
    | peel => rfl
    | symrefs => rfl
    | unborn => rfl
    | refsUnder start =>
      have hstart : (utf8 "ref-prefix ").isPrefixOf? (utf8 "ref-prefix " ++ start) = some start :=
        List.isPrefixOf?_eq_some_iff_append_eq.mpr rfl
      rw [LsRefsLine.text, readLsRefsArg, hstart, checkLimit, if_pos (hroom rfl)]
      rfl

/-- The packets are the lines of a request, up to the packet that ends it. -/
structure Spelled (lines : List LsRefsLine) (packets rest : List PacketLine) : Prop where
  packets_eq : ∃ (texts : List Bytes) (last : PacketLine), packets = texts.map .data ++ last :: rest ∧
    (last = .flush ∨ last = .responseEnd) ∧ texts.map Receive.stripNewline = lines.map LsRefsLine.text

variable {packets rest : List PacketLine}

theorem spelled_nil {last : PacketLine} (hlast : last = .flush ∨ last = .responseEnd)
    (h : packets = last :: rest) : Spelled [] packets rest :=
  ⟨⟨[], last, h, hlast, rfl⟩⟩

theorem spelled_cons_iff {lines : List LsRefsLine} {text : Bytes} :
    Spelled lines (.data text :: packets) rest ↔
      ∃ line lines', lines = line :: lines' ∧ Receive.stripNewline text = line.text ∧ Spelled lines' packets rest := by
  constructor
  · rintro ⟨texts, last, hpackets, hlast, hlines⟩
    cases texts with
    | nil =>
      obtain ⟨rfl, -⟩ := List.cons.inj hpackets
      exact absurd hlast (by simp)
    | cons text' texts =>
      obtain ⟨htext, hrest⟩ := List.cons.inj hpackets
      obtain rfl := PacketLine.data.inj htext
      cases lines with
      | nil => exact nomatch hlines
      | cons line lines' =>
        obtain ⟨hline, hlines⟩ := List.cons.inj hlines
        exact ⟨line, lines', rfl, hline, ⟨texts, last, hrest, hlast, hlines⟩⟩
  · rintro ⟨line, lines', rfl, hline, texts, last, rfl, hlast, hlines⟩
    exact ⟨text :: texts, last, rfl, hlast, by rw [List.map_cons, List.map_cons, hline, hlines]⟩

theorem readLsRefsLoop_iff {limits : ProtocolLimits} {args args' : ListRefsArgs}
    (hargs : args.prefixes.length ≤ limits.maxRefPrefixes) :
    readLsRefsLoop limits args packets = .ok (args', rest) ↔
      ∃ lines, Spelled lines packets rest ∧ args' = lines.foldl LsRefsLine.apply args ∧
        args'.prefixes.length ≤ limits.maxRefPrefixes := by
  induction packets generalizing args with
  | nil =>
    refine ⟨nofun, ?_⟩
    rintro ⟨lines, ⟨texts, last, hpackets, -, -⟩, -, -⟩
    simp at hpackets
  | cons packet packets ih =>
    have hend : (packet = .flush ∨ packet = .responseEnd) →
        (.ok (args, packets) = (.ok (args', rest) : Except LsRefsError _) ↔
          ∃ lines, Spelled lines (packet :: packets) rest ∧ args' = lines.foldl LsRefsLine.apply args ∧
            args'.prefixes.length ≤ limits.maxRefPrefixes) := by
      intro hlast
      constructor
      · intro h
        obtain ⟨rfl, rfl⟩ := Prod.mk.inj (Except.ok.inj h)
        exact ⟨[], spelled_nil hlast rfl, rfl, hargs⟩
      · rintro ⟨lines, ⟨texts, last, hpackets, -, hlines⟩, rfl, -⟩
        cases texts with
        | nil =>
          obtain ⟨-, rfl⟩ := List.cons.inj hpackets
          obtain rfl := List.map_eq_nil_iff.mp hlines.symm
          rfl
        | cons text texts =>
          obtain ⟨rfl, -⟩ := List.cons.inj hpackets
          exact absurd hlast (by simp)
    cases packet with
    | flush => exact hend (Or.inl rfl)
    | responseEnd => exact hend (Or.inr rfl)
    | delimiter =>
      refine ⟨nofun, ?_⟩
      rintro ⟨lines, ⟨texts, last, hpackets, hlast, -⟩, -, -⟩
      cases texts with
      | nil =>
        obtain ⟨rfl, -⟩ := List.cons.inj hpackets
        exact absurd hlast (by simp)
      | cons text texts => exact nomatch (List.cons.inj hpackets).1
    | data text =>
      rw [readLsRefsLoop]
      constructor
      · intro h
        split at h
        · rename_i args₁ hread
          obtain ⟨line, hline, rfl, hroom⟩ := readLsRefsArg_iff.mp hread
          have hargs₁ : (line.apply args).prefixes.length ≤ limits.maxRefPrefixes := by
            cases line with
            | refsUnder start => simpa [LsRefsLine.apply] using hroom rfl
            | _ => exact hargs
          obtain ⟨lines, hspelled, hfold, hlimit⟩ := (ih hargs₁).mp h
          exact ⟨line :: lines, spelled_cons_iff.mpr ⟨line, lines, rfl, hline, hspelled⟩, hfold, hlimit⟩
        · exact nomatch h
      · rintro ⟨lines, hspelled, hfold, hlimit⟩
        obtain ⟨line, lines, rfl, hline, hspelled⟩ := spelled_cons_iff.mp hspelled
        have hgrow : (line.apply args).prefixes.length ≤ limits.maxRefPrefixes := by
          refine le_trans ?_ hlimit
          rw [hfold, List.foldl_cons, prefixes_foldl, List.length_append]
          exact Nat.le_add_right _ _
        have hread : readLsRefsArg limits args (Receive.stripNewline text) = .ok (line.apply args) := by
          refine readLsRefsArg_iff.mpr ⟨line, hline, rfl, fun hstart => ?_⟩
          cases line with
          | refsUnder start => simpa [LsRefsLine.apply] using hgrow
          | _ => simp [LsRefsLine.start?] at hstart
        rw [hread]
        exact (ih hgrow).mpr ⟨lines, hspelled, hfold, hlimit⟩

theorem skipHeader_iff :
    skipHeader packets = .ok ((), rest) ↔ ∃ header : List Bytes, packets = header.map .data ++
      .delimiter :: rest := by
  constructor
  · intro h
    induction packets with
    | nil => exact nomatch h
    | cons packet packets ih =>
      cases packet with
      | data line =>
        obtain ⟨header, rfl⟩ := ih h
        exact ⟨line :: header, rfl⟩
      | delimiter =>
        obtain ⟨-, rfl⟩ := Prod.mk.inj (Except.ok.inj h)
        exact ⟨[], rfl⟩
      | flush => exact nomatch h
      | responseEnd => exact nomatch h
  · rintro ⟨header, rfl⟩
    rw [skipHeader, skipTillDelimiter_lines]
    rfl

/-- **What an accepted ls-refs request is.** The lines before the delimiter are skipped; the others
are known lines, each with or without its newline, in any order, with no more prefixes than the
limit; a flush or a response-end packet ends the request, and what follows is left for the next
one. -/
theorem readLsRefsArgs_iff {limits : ProtocolLimits} {packets rest : List PacketLine}
    {args : ListRefsArgs} :
    readLsRefsArgs limits packets = .ok (args, rest) ↔
      ∃ (header : List Bytes) (lines : List LsRefsLine) (request : List PacketLine),
        packets = header.map .data ++ .delimiter :: request ∧ Spelled lines request rest ∧
          args = .ofLines lines ∧ (lines.filterMap LsRefsLine.start?).length ≤ limits.maxRefPrefixes := by
  have hloop : ∀ request, readLsRefsLoop limits {} request = .ok (args, rest) ↔
      ∃ lines, Spelled lines request rest ∧ args = .ofLines lines ∧
        (lines.filterMap LsRefsLine.start?).length ≤ limits.maxRefPrefixes := by
    intro request
    rw [readLsRefsLoop_iff (Nat.zero_le _)]
    refine exists_congr fun lines => and_congr_right fun _ => ?_
    rw [foldl_apply]
    refine and_congr_right fun hargs => ?_
    rw [hargs]
    rfl
  constructor
  · intro h
    obtain ⟨⟨u, request⟩, hskip, hread⟩ := bind_eq_ok_iff.mp h
    obtain ⟨header, hpackets⟩ := skipHeader_iff.mp (mapError_eq_ok_iff.mp hskip)
    obtain ⟨lines, hlines⟩ := (hloop request).mp hread
    exact ⟨header, lines, request, hpackets, hlines⟩
  · rintro ⟨header, lines, request, hpackets, hlines⟩
    have hskip := skipHeader_iff.mpr ⟨header, hpackets⟩
    exact bind_eq_ok_iff.mpr ⟨((), request), mapError_eq_ok_iff.mpr hskip, (hloop request).mpr ⟨lines, hlines⟩⟩

end Mizzle.Upload
