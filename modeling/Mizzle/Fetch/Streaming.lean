import Mizzle.Fetch.Client
import Mizzle.Lib.Runs

/-!
# Streaming a pack

A pack on its way to the client: the thread that generates it (`build_pack_sync` of
`mizzle/src/backend/fs_gitoxide.rs`), the channels to `PackReader`, and `stream_pack_sideband` of
`mizzle/src/fetch.rs`, which reads, drains the progress messages and writes packets. The thread and
the call run at the same time. The thread is given by the chunks it sends, empty ones among them, by
the messages that are sent beside them, and by how it ends. What it does once the call has failed
and the reader is gone is left out.

The packets of a state are those that were written whole: one whose write failed is not among them.

A read takes at most a buffer from one chunk, and the end of the stream and a failure are told apart
only by joining the thread after the channel has closed. Every byte is in a packet, in the call, in
the reader, in the channel or still to come, in this order (`Balanced`), and the call gets to its
last drain only through a join that gave no error (`Control`). So no bytes are lost and no error is
hidden (`streamed`).
-/

namespace Mizzle.Fetch.Streaming

open Lib

/-- How the thread ends. -/
inductive ThreadResult where
  | ok
  | error (e : String)
  | panicked
deriving DecidableEq

/-- The chunks that the thread sends, the messages that are sent beside them, and how the thread
ends. -/
structure Generator where
  chunks : List Bytes
  messages : List Bytes
  result : ThreadResult
deriving DecidableEq

/-- Where `stream_pack_sideband` is; `last` in the drain behind the loop. -/
inductive Pc where
  /-- `rx.try_iter().collect()`, with what it has so far. -/
  | collect (last : Bool) (messages : List Bytes)
  /-- The loop over these messages, with those that are not written yet. -/
  | writeMessages (last : Bool) (messages : List Bytes)
  /-- The loop of `PackReader::read`. -/
  | read
  /-- The join of the thread in it. -/
  | join
  | writeData (data : Bytes)
  | returned (result : Except String Unit)
  /-- The call has returned, and `perform_fetch` has written the flush packet. -/
  | flushed
deriving DecidableEq

structure State where
  /-- What the thread and the others have not sent yet. -/
  chunksLeft : List Bytes
  messagesLeft : List Bytes
  /-- The sender of the chunks has been dropped. -/
  closed : Bool
  /-- The thread is at its end. -/
  ended : Bool
  /-- The two channels. -/
  chunkQueue : List Bytes
  messageQueue : List Bytes
  /-- What is left of the chunk that is read, and whether the handle of the thread is still
  there. -/
  current : Bytes
  handle : Bool
  pc : Pc
  packets : List PacketLine
deriving DecidableEq

inductive Event where
  | sendChunk
  | sendMessage
  | close
  | finish
  /-- The next step of the call. -/
  | call
  /-- The write that is next fails. -/
  | ioError (e : String)
deriving DecidableEq

/-- Chunks in flight: `sync_channel(4)`. -/
def chunkCapacity : Nat := 4

/-- A drain; without a receiver there is nothing in it. -/
def drainPc (progress last : Bool) : Pc :=
  if progress then .collect last [] else .writeMessages last []

def start (gen : Generator) (progress : Bool) : State where
  chunksLeft := gen.chunks
  messagesLeft := gen.messages
  closed := false
  ended := false
  chunkQueue := []
  messageQueue := []
  current := []
  handle := true
  pc := drainPc progress false
  packets := []

/-- `band_to_write`, then on to `next`. -/
def State.write (s : State) (channel : UInt8) (payload : Bytes) (next : Pc) : State :=
  match (bandToWrite channel payload).exec with
  | (.ok _, log) => { s with packets := s.packets ++ log.packets, pc := next }
  | (.error e, _) => { s with pc := .returned (.error e) }

/-- One round of `PackReader::read`: a part of the current chunk, or else the next chunk. -/
def readStep (progress : Bool) (s : State) : Option State :=
  if s.current = [] then
    match s.chunkQueue with
    | chunk :: rest => some { s with chunkQueue := rest, current := chunk }
    | [] =>
      if s.closed then
        if s.handle then some { s with handle := false, pc := .join } else some { s with pc := drainPc progress true }
      else none
  else some { s with current := s.current.drop maxSideband, pc := .writeData (s.current.take maxSideband) }

/-- What the join makes of the end of the thread. -/
def joinPc (progress : Bool) : ThreadResult → Pc
  | .ok => drainPc progress true
  | .error e => .returned (.error e)
  | .panicked => .returned (.error "pack generation thread panicked")

/-- A step of the call. It waits for a chunk, or for the end of the thread. -/
def callStep (result : ThreadResult) (progress : Bool) (s : State) : Option State :=
  match s.pc with
  | .collect last messages =>
    match s.messageQueue with
    | m :: rest => some { s with messageQueue := rest, pc := .collect last (messages ++ [m]) }
    | [] => some { s with pc := .writeMessages last messages }
  | .writeMessages last [] => some { s with pc := if last then .returned (.ok ()) else .read }
  | .writeMessages last (m :: messages) => some (s.write channelProgress m (.writeMessages last messages))
  | .read => readStep progress s
  | .join => if s.ended then some { s with pc := joinPc progress result } else none
  | .writeData data => some (s.write channelData data (drainPc progress false))
  | .returned (.ok _) => some { s with packets := s.packets ++ [.flush], pc := .flushed }
  | .returned (.error _) => none
  | .flushed => none

/-- The payload that is written next. -/
def Pc.payload : Pc → Option Bytes
  | .writeMessages _ (m :: _) => some m
  | .writeData data => some data
  | _ => none

def step (gen : Generator) (progress : Bool) (s : State) : Event → Option State
  | .sendChunk =>
    match s.chunksLeft with
    | chunk :: rest =>
      if s.closed = false ∧ s.chunkQueue.length < chunkCapacity then
        some { s with chunksLeft := rest, chunkQueue := s.chunkQueue ++ [chunk] }
      else none
    | [] => none
  | .sendMessage =>
    match s.messagesLeft with
    | m :: rest => some { s with messagesLeft := rest, messageQueue := s.messageQueue ++ [m] }
    | [] => none
  | .close => if s.closed = false ∧ s.chunksLeft = [] then some { s with closed := true } else none
  | .finish => if s.closed = true ∧ s.ended = false then some { s with ended := true } else none
  | .call => callStep gen.result progress s
  | .ioError e => if s.pc.payload.isSome then some { s with pc := .returned (.error e) } else none

/-! ### What a step can do -/

/-- The steps, one by one. -/
inductive Transition (gen : Generator) (progress : Bool) (s : State) : Event → State → Prop
  | sendChunk {chunk : Bytes} {rest : List Bytes} (hleft : s.chunksLeft = chunk :: rest) (hopen : s.closed = false)
    (hroom : s.chunkQueue.length < chunkCapacity) :
    Transition gen progress s .sendChunk { s with chunksLeft := rest, chunkQueue := s.chunkQueue ++ [chunk] }
  | sendMessage {m : Bytes} {rest : List Bytes} (hleft : s.messagesLeft = m :: rest) :
    Transition gen progress s .sendMessage { s with messagesLeft := rest, messageQueue := s.messageQueue ++ [m] }
  | close (hopen : s.closed = false) (hleft : s.chunksLeft = []) :
    Transition gen progress s .close { s with closed := true }
  | finish (hclosed : s.closed = true) (hended : s.ended = false) :
    Transition gen progress s .finish { s with ended := true }
  | collect {last : Bool} {messages rest : List Bytes} {m : Bytes} (hpc : s.pc = .collect last messages)
    (hqueue : s.messageQueue = m :: rest) :
    Transition gen progress s .call { s with messageQueue := rest, pc := .collect last (messages ++ [m]) }
  | collected {last : Bool} {messages : List Bytes} (hpc : s.pc =
    .collect last messages) (hqueue : s.messageQueue = []) :
    Transition gen progress s .call { s with pc := .writeMessages last messages }
  | writeMessage {last : Bool} {m : Bytes} {messages : List Bytes} (hpc : s.pc = .writeMessages last (m :: messages))
    (hne : m ≠ []) (hfits : m.length < Proto.maxDataLen) :
    Transition gen progress s .call
      { s with packets := s.packets ++ [bandPacket channelProgress m], pc := .writeMessages last messages }
  | drained (hpc : s.pc = .writeMessages false []) : Transition gen progress s .call { s with pc := .read }
  | finished (hpc : s.pc = .writeMessages true []) :
    Transition gen progress s .call { s with pc := .returned (.ok ()) }
  | readCurrent (hpc : s.pc = .read) (hcurrent : s.current ≠ []) :
    Transition gen progress s .call { s with current := s.current.drop maxSideband, pc := .writeData (s.current.take maxSideband) }
  | recv {chunk : Bytes} {rest : List Bytes} (hpc : s.pc = .read) (hcurrent : s.current = [])
    (hqueue : s.chunkQueue = chunk :: rest) :
    Transition gen progress s .call { s with chunkQueue := rest, current := chunk }
  | take (hpc : s.pc = .read) (hcurrent : s.current = []) (hqueue : s.chunkQueue = []) (hclosed : s.closed = true)
    (hhandle : s.handle = true) : Transition gen progress s .call { s with handle := false, pc := .join }
  | taken (hpc : s.pc = .read) (hcurrent : s.current = []) (hqueue : s.chunkQueue = []) (hclosed : s.closed = true)
    (hhandle : s.handle = false) : Transition gen progress s .call { s with pc := drainPc progress true }
  | joined (hpc : s.pc = .join) (hended : s.ended = true) (hresult : gen.result = .ok) :
    Transition gen progress s .call { s with pc := drainPc progress true }
  | joinFailed {e : String} (hpc : s.pc = .join) (hended : s.ended = true) (hresult : gen.result ≠ .ok) :
    Transition gen progress s .call { s with pc := .returned (.error e) }
  | writeData {data : Bytes} (hpc : s.pc = .writeData data) (hne : data ≠ [])
    (hfits : data.length < Proto.maxDataLen) :
    Transition gen progress s .call
      { s with packets := s.packets ++ [bandPacket channelData data], pc := drainPc progress false }
  | refused {payload : Bytes} {e : String} (hpc : s.pc.payload = some payload)
    (hrefused : payload = [] ∨ Proto.maxDataLen ≤ payload.length) :
    Transition gen progress s .call { s with pc := .returned (.error e) }
  | ioError {payload : Bytes} {e : String} (hpc : s.pc.payload = some payload) :
    Transition gen progress s (.ioError e) { s with pc := .returned (.error e) }
  | flush (hpc : s.pc = .returned (.ok ())) :
    Transition gen progress s .call { s with packets := s.packets ++ [.flush], pc := .flushed }

theorem write_cases (s : State) (channel : UInt8) (payload : Bytes) (next : Pc) :
    (payload ≠ [] ∧ payload.length < Proto.maxDataLen ∧
      s.write channel payload next = { s with packets := s.packets ++ [bandPacket channel payload], pc := next }) ∨
    (payload = [] ∨ Proto.maxDataLen ≤ payload.length) ∧
      ∃ e, s.write channel payload next = { s with pc := .returned (.error e) } := by
  by_cases hfits : payload.length < Proto.maxDataLen
  · by_cases hne : payload = []
    · refine Or.inr ⟨Or.inl hne, "Empty lines are invalid", ?_⟩
      subst hne
      rfl
    · refine Or.inl ⟨hne, hfits, ?_⟩
      rw [State.write, (writes_band hne hfits).exec]
  · have hlong : [channel].length + payload.length + ([] : Bytes).length > Proto.maxDataLen := by
      simp only [List.length_cons, List.length_nil]
      omega
    refine Or.inr ⟨Or.inr (Nat.le_of_not_lt hfits), "Cannot encode more than 65516 bytes", ?_⟩
    rw [State.write, bandToWrite, dataToWrite, if_pos hlong]
    rfl

theorem transition_of_readStep {gen : Generator} {progress : Bool} {s s' : State}
    (hpc : s.pc = .read) (h : readStep progress s = some s') :
    Transition gen progress s .call s' := by
  rw [readStep] at h
  split at h
  case isFalse hcurrent =>
    rw [← Option.some.inj h]
    exact .readCurrent hpc hcurrent
  case isTrue hcurrent =>
    split at h
    case h_1 chunk rest hqueue =>
      rw [← Option.some.inj h]
      exact .recv hpc hcurrent hqueue
    case h_2 hqueue =>
      split at h
      case isFalse => cases h
      case isTrue hclosed =>
        split at h
        case isTrue hhandle =>
          rw [← Option.some.inj h]
          exact .take hpc hcurrent hqueue hclosed hhandle
        case isFalse hhandle =>
          rw [← Option.some.inj h]
          exact .taken hpc hcurrent hqueue hclosed (Bool.not_eq_true _ ▸ hhandle)

theorem transition_of_callStep {gen : Generator} {progress : Bool} {s s' : State}
    (h : callStep gen.result progress s = some s') : Transition gen progress s .call s' := by
  cases hpc : s.pc with
  | collect last messages =>
    simp only [callStep, hpc] at h
    split at h
    case h_1 m rest hqueue => exact Option.some.inj h ▸ .collect hpc hqueue
    case h_2 hqueue => exact Option.some.inj h ▸ .collected hpc hqueue
  | writeMessages last messages =>
    cases messages with
    | nil =>
      simp only [callStep, hpc, Option.some.injEq] at h
      cases last with
      | false => exact h ▸ .drained hpc
      | true => exact h ▸ .finished hpc
    | cons m messages =>
      simp only [callStep, hpc, Option.some.injEq] at h
      rcases write_cases s channelProgress m
        (.writeMessages last messages) with ⟨hne, hfits, hwrite⟩ | ⟨hrefused, e, hwrite⟩
      · exact h ▸ hwrite ▸ .writeMessage hpc hne hfits
      · exact h ▸ hwrite ▸ .refused (by rw [hpc]; rfl) hrefused
  | read =>
    simp only [callStep, hpc] at h
    exact transition_of_readStep hpc h
  | join =>
    simp only [callStep, hpc, Option.ite_none_right_eq_some, Option.some.injEq] at h
    obtain ⟨hended, rfl⟩ := h
    cases hresult : gen.result with
    | ok => exact .joined hpc hended hresult
    | error e => exact .joinFailed hpc hended (by rw [hresult]; exact ThreadResult.noConfusion)
    | panicked => exact .joinFailed hpc hended (by rw [hresult]; exact ThreadResult.noConfusion)
  | writeData data =>
    simp only [callStep, hpc, Option.some.injEq] at h
    rcases write_cases s channelData data (drainPc progress false) with ⟨hne, hfits, hwrite⟩ | ⟨hrefused, e, hwrite⟩
    · exact h ▸ hwrite ▸ .writeData hpc hne hfits
    · exact h ▸ hwrite ▸ .refused (by rw [hpc]; rfl) hrefused
  | returned result =>
    cases result with
    | error e => simp only [callStep, hpc, reduceCtorEq] at h
    | ok =>
      simp only [callStep, hpc, Option.some.injEq] at h
      exact h ▸ .flush hpc
  | flushed => simp only [callStep, hpc, reduceCtorEq] at h

/-- **Every step is one of the transitions.** -/
theorem transition_of_step {gen : Generator} {progress : Bool} {s s' : State} {e : Event}
    (h : step gen progress s e = some s') : Transition gen progress s e s' := by
  cases e with
  | sendChunk =>
    cases hleft : s.chunksLeft with
    | nil => simp only [step, hleft, reduceCtorEq] at h
    | cons chunk rest =>
      simp only [step, hleft, Option.ite_none_right_eq_some, Option.some.injEq] at h
      obtain ⟨⟨hopen, hroom⟩, rfl⟩ := h
      exact .sendChunk hleft hopen hroom
  | sendMessage =>
    cases hleft : s.messagesLeft with
    | nil => simp only [step, hleft, reduceCtorEq] at h
    | cons m rest =>
      simp only [step, hleft, Option.some.injEq] at h
      exact h ▸ .sendMessage hleft
  | close =>
    obtain ⟨⟨hopen, hleft⟩, h⟩ := Option.ite_none_right_eq_some.mp h
    exact Option.some.inj h ▸ .close hopen hleft
  | finish =>
    obtain ⟨⟨hclosed, hended⟩, h⟩ := Option.ite_none_right_eq_some.mp h
    exact Option.some.inj h ▸ .finish hclosed hended
  | call => exact transition_of_callStep h
  | ioError e =>
    obtain ⟨hpayload, h⟩ := Option.ite_none_right_eq_some.mp h
    obtain ⟨payload, hpayload⟩ := Option.isSome_iff_exists.mp hpayload
    exact Option.some.inj h ▸ .ioError hpayload

/-! ### Where the call can be -/

/-- There will be no more data. -/
def Exhausted (s : State) : Prop := s.closed = true ∧ s.chunkQueue = [] ∧ s.current = []

/-- What is known at each place. The handle is there until the join, so the loop is not left without
one. -/
def PcInv (gen : Generator) (s : State) : Pc → Prop
  | .collect false _ | .writeMessages false _ | .read => s.handle = true
  | .writeData data => s.handle = true ∧ data ≠ [] ∧ data.length ≤ maxSideband
  | .join => Exhausted s
  | .collect true _ | .writeMessages true _ | .returned (.ok _) | .flushed => gen.result = .ok ∧ Exhausted s
  | .returned (.error _) => True

structure Control (gen : Generator) (s : State) : Prop where
  sent : s.closed = true → s.chunksLeft = []
  atPc : PcInv gen s s.pc
  flush : .flush ∈ s.packets → s.pc = .flushed

variable {gen : Generator} {progress : Bool} {s s' : State} {e : Event}

theorem pcInv_drainPc_false : PcInv gen s (drainPc progress false) ↔ s.handle = true := by
  cases progress <;> exact Iff.rfl

theorem pcInv_drainPc_true :
    PcInv gen s (drainPc progress true) ↔ gen.result = .ok ∧ Exhausted s := by
  cases progress <;> exact Iff.rfl

variable {pc : Pc} {packets : List PacketLine}

theorem PcInv.mono (h : PcInv gen s pc) (hhandle : s'.handle = s.handle)
    (hexhausted : Exhausted s → Exhausted s') : PcInv gen s' pc := by
  cases pc with
  | collect last messages =>
    cases last with
    | false => exact hhandle.trans h
    | true => exact ⟨h.1, hexhausted h.2⟩
  | writeMessages last messages =>
    cases last with
    | false => exact hhandle.trans h
    | true => exact ⟨h.1, hexhausted h.2⟩
  | read => exact hhandle.trans h
  | join => exact hexhausted h
  | writeData data => exact ⟨hhandle.trans h.1, h.2⟩
  | returned result =>
    cases result with
    | error e => trivial
    | ok => exact ⟨h.1, hexhausted h.2⟩
  | flushed => exact ⟨h.1, hexhausted h.2⟩

theorem Control.start (gen : Generator) (progress : Bool) : Control gen (start gen progress) where
  sent h := Bool.noConfusion h
  atPc := pcInv_drainPc_false.mpr rfl
  flush h := absurd h List.not_mem_nil

namespace Control

theorem pcInv (h : Control gen s) (hpc : s.pc = pc) : PcInv gen s pc := hpc ▸ h.atPc

theorem notMem (h : Control gen s) (hpc : s.pc = pc) (hne : pc ≠ .flushed) :
    .flush ∉ s.packets :=
  fun hmem => hne (hpc.symm.trans (h.flush hmem))

theorem notMem_of_payload (h : Control gen s) {payload : Bytes}
    (hpc : s.pc.payload = some payload) : .flush ∉ s.packets := by
  intro hmem
  rw [h.flush hmem] at hpc
  cases hpc

theorem next (h : Control gen s) (ht : Transition gen progress s e s') : Control gen s' := by
  cases ht with
  | sendChunk hleft hopen hroom =>
    -- nothing is sent on a channel that is closed
    have hnot : ¬ s.closed = true := by simp [hopen]
    exact ⟨fun hclosed => absurd hclosed hnot, h.atPc.mono rfl fun hex => absurd hex.1 hnot, h.flush⟩
  | sendMessage hleft => exact ⟨h.sent, h.atPc.mono rfl id, h.flush⟩
  | close hopen hleft => exact ⟨fun _ => hleft, h.atPc.mono rfl fun hex => ⟨rfl, hex.2⟩, h.flush⟩
  | finish hclosed hended => exact ⟨h.sent, h.atPc.mono rfl id, h.flush⟩
  | @collect last messages rest m hpc hqueue =>
    refine ⟨h.sent, ?_, fun hmem => absurd hmem (h.notMem hpc Pc.noConfusion)⟩
    cases last <;> exact h.pcInv hpc
  | @collected last messages hpc hqueue =>
    refine ⟨h.sent, ?_, fun hmem => absurd hmem (h.notMem hpc Pc.noConfusion)⟩
    cases last <;> exact h.pcInv hpc
  | @writeMessage last m messages hpc hne hfits =>
    have hnot : .flush ∉ s.packets ++ [bandPacket channelProgress m] := by simp [h.notMem hpc, bandPacket]
    refine ⟨h.sent, ?_, fun hmem => absurd hmem hnot⟩
    cases last <;> exact h.pcInv hpc
  | drained hpc => exact ⟨h.sent, h.pcInv hpc, fun hmem => absurd hmem (h.notMem hpc Pc.noConfusion)⟩
  | finished hpc => exact ⟨h.sent, h.pcInv hpc, fun hmem => absurd hmem (h.notMem hpc Pc.noConfusion)⟩
  | readCurrent hpc hcurrent =>
    refine ⟨h.sent, ⟨h.pcInv hpc, ?_, List.length_take_le _ _⟩, fun hmem => absurd hmem (h.notMem hpc Pc.noConfusion)⟩
    simp [hcurrent, maxSideband]
  | recv hpc hcurrent hqueue =>
    refine ⟨h.sent, ?_, fun hmem => absurd hmem (h.notMem hpc Pc.noConfusion)⟩
    show PcInv gen _ s.pc
    rw [hpc]
    exact h.pcInv hpc
  | take hpc hcurrent hqueue hclosed hhandle =>
    exact ⟨h.sent, ⟨hclosed, hqueue, hcurrent⟩, fun hmem => absurd hmem (h.notMem hpc Pc.noConfusion)⟩
  | taken hpc hcurrent hqueue hclosed hhandle =>
    -- the handle is there
    exact absurd ((h.pcInv hpc).symm.trans hhandle) Bool.noConfusion
  | joined hpc hended hresult =>
    exact ⟨h.sent, pcInv_drainPc_true.mpr ⟨hresult, h.pcInv hpc⟩, fun hmem =>
      absurd hmem (h.notMem hpc Pc.noConfusion)⟩
  | joinFailed hpc hended hresult => exact ⟨h.sent, trivial, fun hmem => absurd hmem (h.notMem hpc Pc.noConfusion)⟩
  | @writeData data hpc hne hfits =>
    have hnot : .flush ∉ s.packets ++ [bandPacket channelData data] := by simp [h.notMem hpc, bandPacket]
    exact ⟨h.sent, pcInv_drainPc_false.mpr (h.pcInv hpc).1, fun hmem => absurd hmem hnot⟩
  | refused hpc hrefused => exact ⟨h.sent, trivial, fun hmem => absurd hmem (h.notMem_of_payload hpc)⟩
  | ioError hpc => exact ⟨h.sent, trivial, fun hmem => absurd hmem (h.notMem_of_payload hpc)⟩
  | flush hpc => exact ⟨h.sent, h.pcInv hpc, fun _ => rfl⟩

end Control

/-! ### Where the bytes and the messages are -/

def bandPayload (channel : UInt8) : PacketLine → Option Bytes
  | .data (band :: payload) => if band = channel then some payload else none
  | _ => none

/-- What has been written on a channel. -/
def payloads (channel : UInt8) (packets : List PacketLine) : List Bytes :=
  packets.filterMap (bandPayload channel)

theorem payloads_concat_band (channel : UInt8) (packets : List PacketLine) (payload : Bytes) :
    payloads channel (packets ++ [bandPacket channel payload]) =
      payloads channel packets ++ [payload] := by
  simp [payloads, bandPacket, bandPayload]

theorem payloads_concat_other {channel : UInt8} {packet : PacketLine}
    (h : bandPayload channel packet = none) :
    payloads channel (packets ++ [packet]) = payloads channel packets := by
  simp [payloads, h]

def Pc.data : Pc → Bytes
  | .writeData data => data
  | _ => []

def Pc.messages : Pc → List Bytes
  | .collect _ messages | .writeMessages _ messages => messages
  | _ => []

def Pc.failed : Pc → Bool
  | .returned (.error _) => true
  | _ => false

/-- Bytes and messages are written, in the call, in the reader, in a channel or still to come, in
this order. -/
structure Balanced (gen : Generator) (s : State) : Prop where
  bytes : (payloads channelData s.packets).flatten ++ s.pc.data ++ s.current ++
    s.chunkQueue.flatten ++ s.chunksLeft.flatten =
    gen.chunks.flatten
  messages : payloads channelProgress s.packets ++ s.pc.messages ++ s.messageQueue ++ s.messagesLeft = gen.messages

/-- A call that fails leaves what it was about to write. -/
structure Conserved (gen : Generator) (s : State) : Prop where
  balanced : s.pc.failed = false → Balanced gen s
  written : (payloads channelData s.packets).flatten <+: gen.chunks.flatten
  reported : payloads channelProgress s.packets <+: gen.messages

@[simp] theorem data_drainPc (progress last : Bool) : (drainPc progress last).data = [] := by
  cases progress <;> rfl

@[simp] theorem messages_drainPc (progress last : Bool) : (drainPc progress last).messages = [] := by
  cases progress <;> rfl

namespace Balanced

theorem start (gen : Generator) (progress : Bool) : Balanced gen (start gen progress) where
  bytes := by simp [Streaming.start, payloads]
  messages := by simp [Streaming.start, payloads]

theorem conserved (h : Balanced gen s) : Conserved gen s where
  balanced _ := h
  written := by
    rw [← h.bytes]
    simp only [List.append_assoc]
    exact List.prefix_append _ _
  reported := by
    rw [← h.messages]
    simp only [List.append_assoc]
    exact List.prefix_append _ _

theorem next (h : Balanced gen s) (ht : Transition gen progress s e s')
    (hok : s'.pc.failed = false) : Balanced gen s' := by
  obtain ⟨hbytes, hmessages⟩ := h
  have hother : ∀ payload, bandPayload channelData (bandPacket channelProgress payload) = none ∧
      bandPayload channelProgress (bandPacket channelData payload) = none := fun _ => ⟨rfl, rfl⟩
  have hflush : ∀ channel, bandPayload channel .flush = none := fun _ => rfl
  cases ht with
  | sendChunk hleft hopen hroom => exact ⟨by simpa [hleft] using hbytes, hmessages⟩
  | sendMessage hleft => exact ⟨hbytes, by simpa [hleft] using hmessages⟩
  | close hopen hleft => exact ⟨hbytes, hmessages⟩
  | finish hclosed hended => exact ⟨hbytes, hmessages⟩
  | collect hpc hqueue =>
    rw [hpc] at hbytes hmessages
    exact ⟨hbytes, by simpa [Pc.messages, hqueue] using hmessages⟩
  | collected hpc hqueue =>
    rw [hpc] at hbytes hmessages
    exact ⟨hbytes, hmessages⟩
  | writeMessage hpc hne hfits =>
    rw [hpc] at hbytes hmessages
    refine ⟨?_, ?_⟩
    · rw [payloads_concat_other (hother _).1]
      exact hbytes
    · rw [payloads_concat_band]
      simpa [Pc.messages] using hmessages
  | drained hpc =>
    rw [hpc] at hbytes hmessages
    exact ⟨hbytes, hmessages⟩
  | finished hpc =>
    rw [hpc] at hbytes hmessages
    exact ⟨hbytes, hmessages⟩
  | readCurrent hpc hcurrent =>
    rw [hpc] at hbytes hmessages
    refine ⟨?_, hmessages⟩
    rw [← List.take_append_drop maxSideband s.current] at hbytes
    simpa [Pc.data] using hbytes
  | recv hpc hcurrent hqueue => exact ⟨by simpa [hcurrent, hqueue] using hbytes, hmessages⟩
  | take hpc hcurrent hqueue hclosed hhandle =>
    rw [hpc] at hbytes hmessages
    exact ⟨hbytes, hmessages⟩
  | taken hpc hcurrent hqueue hclosed hhandle =>
    rw [hpc] at hbytes hmessages
    exact ⟨by rwa [data_drainPc], by rwa [messages_drainPc]⟩
  | joined hpc hended hresult =>
    rw [hpc] at hbytes hmessages
    exact ⟨by rwa [data_drainPc], by rwa [messages_drainPc]⟩
  | joinFailed hpc hended hresult => cases hok
  | writeData hpc hne hfits =>
    rw [hpc] at hbytes hmessages
    refine ⟨?_, ?_⟩
    · rw [payloads_concat_band, data_drainPc]
      simpa [Pc.data] using hbytes
    · rw [payloads_concat_other (hother _).2, messages_drainPc]
      exact hmessages
  | refused hpc hrefused => cases hok
  | ioError hpc => cases hok
  | flush hpc =>
    rw [hpc] at hbytes hmessages
    refine ⟨?_, ?_⟩
    · rw [payloads_concat_other (hflush _)]
      exact hbytes
    · rw [payloads_concat_other (hflush _)]
      exact hmessages

end Balanced

theorem not_failed_of_next (ht : Transition gen progress s e s') (hok : s'.pc.failed = false) :
    s.pc.failed = false := by
  by_contra hfailed
  obtain ⟨e', hpc⟩ : ∃ e', s.pc = .returned (.error e') := by
    cases hpc : s.pc with
    | returned result =>
      cases result with
      | error e' => exact ⟨e', rfl⟩
      | ok => simp [hpc, Pc.failed] at hfailed
    | _ => simp [hpc, Pc.failed] at hfailed
  cases ht <;> simp_all [Pc.payload]

theorem packets_of_failed (ht : Transition gen progress s e s') (hfailed : s'.pc.failed = true) :
    s'.packets = s.packets := by
  cases ht with
  | writeMessage => cases hfailed
  | writeData => cases progress <;> cases hfailed
  | flush => cases hfailed
  | _ => rfl

theorem Conserved.next (h : Conserved gen s) (ht : Transition gen progress s e s') :
    Conserved gen s' := by
  cases hfailed : s'.pc.failed with
  | false => exact ((h.balanced (not_failed_of_next ht hfailed)).next ht hfailed).conserved
  | true =>
    have hpackets := packets_of_failed ht hfailed
    refine ⟨fun hok => absurd (hfailed.symm.trans hok) Bool.noConfusion, ?_, ?_⟩
    · rw [hpackets]
      exact h.written
    · rw [hpackets]
      exact h.reported

/-- A progress message, or data that comes from one read. -/
def IsBand (packet : PacketLine) : Prop :=
  (∃ m, packet = bandPacket channelProgress m ∧ m ≠ [] ∧ m.length < Proto.maxDataLen) ∨
    ∃ data, packet = bandPacket channelData data ∧ data ≠ [] ∧ data.length ≤ maxSideband

def Banded (packets : List PacketLine) : Prop := ∀ packet ∈ packets, IsBand packet ∨ packet = .flush

theorem Banded.concat {packet : PacketLine} (h : Banded packets)
    (hpacket : IsBand packet ∨ packet = .flush) : Banded (packets ++ [packet]) := by
  intro p hp
  rcases List.mem_append.mp hp with hp | hp
  · exact h p hp
  · exact List.mem_singleton.mp hp ▸ hpacket

theorem Banded.next (h : Banded s.packets) (hcontrol : Control gen s)
    (ht : Transition gen progress s e s') : Banded s'.packets := by
  cases ht with
  | writeMessage hpc hne hfits => exact h.concat (Or.inl (Or.inl ⟨_, rfl, hne, hfits⟩))
  | writeData hpc hne hfits => exact h.concat (Or.inl (Or.inr ⟨_, rfl, (hcontrol.pcInv hpc).2⟩))
  | flush hpc => exact h.concat (Or.inr rfl)
  | _ => exact h

theorem Banded.sized (h : Banded packets) {payload : Bytes}
    (hmem : payload ∈ payloads channelData packets) :
    payload ≠ [] ∧ payload.length ≤ maxSideband := by
  obtain ⟨packet, hpacket, hpayload⟩ := List.mem_filterMap.mp hmem
  rcases h packet hpacket with (⟨m, rfl, -⟩ | ⟨data, rfl, hdata⟩) | rfl
  · cases hpayload
  · rw [← Option.some.inj hpayload]
    exact hdata
  · cases hpayload

/-! ### Every run -/

/-- The call has returned without an error. -/
def Pc.returnedOk (pc : Pc) : Prop := pc = .returned (.ok ()) ∨ pc = .flushed

theorem Pc.returnedOk.idle (h : pc.returnedOk) :
    pc.failed = false ∧ pc.data = [] ∧ pc.messages = [] := by
  rcases h with rfl | rfl <;> exact ⟨rfl, rfl, rfl⟩

/-- What the client gets. -/
structure Streamed (gen : Generator) (s : State) : Prop where
  data : (payloads channelData s.packets).flatten <+: gen.chunks.flatten
  complete : s.pc.returnedOk → (payloads channelData s.packets).flatten = gen.chunks.flatten
  sized : ∀ payload ∈ payloads channelData s.packets, payload ≠ [] ∧ payload.length + 1 ≤ Proto.maxDataLen
  progress : payloads channelProgress s.packets <+: gen.messages
  success : s.pc.returnedOk → gen.result = .ok
  flush : .flush ∈ s.packets → gen.result = .ok ∧ (payloads channelData s.packets).flatten = gen.chunks.flatten

theorem PcInv.of_returnedOk (h : PcInv gen s pc) (hok : pc.returnedOk) :
    gen.result = .ok ∧ Exhausted s := by
  rcases hok with rfl | rfl
  · exact h
  · exact h

/-- The invariants of a run. -/
structure Inv (gen : Generator) (s : State) : Prop where
  control : Control gen s
  conserved : Conserved gen s
  banded : Banded s.packets

theorem Inv.start (gen : Generator) (progress : Bool) : Inv gen (start gen progress) where
  control := .start gen progress
  conserved := (Balanced.start gen progress).conserved
  banded _ hmem := absurd hmem List.not_mem_nil

theorem Inv.next (h : Inv gen s) (ht : Transition gen progress s e s') : Inv gen s' :=
  ⟨h.control.next ht, h.conserved.next ht, h.banded.next h.control ht⟩

theorem inv_of_runs {ok : State → Event → Prop}
    (h : Runs (step gen progress) ok (start gen progress) s) : Inv gen s :=
  h.invariant (Inv gen) (fun hinv _ hstep => hinv.next (transition_of_step hstep)) (.start gen progress)

theorem Inv.complete (h : Inv gen s) (hok : s.pc.returnedOk) :
    (payloads channelData s.packets).flatten = gen.chunks.flatten := by
  obtain ⟨-, hclosed, hqueue, hcurrent⟩ := h.control.atPc.of_returnedOk hok
  obtain ⟨hfailed, hdata, -⟩ := hok.idle
  have hbytes := (h.conserved.balanced hfailed).bytes
  simpa [hdata, hcurrent, hqueue, h.control.sent hclosed] using hbytes

/-- **No bytes are lost and no error is hidden**, however the thread and the call take turns. -/
theorem streamed (h : Runs (step gen progress) (fun _ _ => True) (start gen progress) s) :
    Streamed gen s := by
  have hinv := inv_of_runs h
  refine ⟨hinv.conserved.written, hinv.complete, fun payload hmem => ?_, hinv.conserved.reported,
    fun hok => (hinv.control.atPc.of_returnedOk hok).1, fun hmem => ?_⟩
  · obtain ⟨hne, hlength⟩ := hinv.banded.sized hmem
    exact ⟨hne, (Nat.add_le_add_right hlength 1).trans (by decide)⟩
  · have hok : s.pc.returnedOk := Or.inr (hinv.control.flush hmem)
    exact ⟨(hinv.control.atPc.of_returnedOk hok).1, hinv.complete hok⟩

/-- A pack in three chunks, one of them empty, and two messages. -/
def sampleGenerator : Generator :=
  { chunks := [[80, 65], [], [67]], messages := [[49], [50]], result := .ok }

/-- The second message is sent when the channel of the chunks is closed. -/
def sampleSchedule : List Event :=
  [.sendMessage, .call, .sendChunk, .call, .call, .call, .call, .call, .sendChunk, .call,
    .sendChunk, .call, .call, .call, .call,
    .call, .close, .call, .sendMessage, .call, .call, .call, .call, .call, .finish, .call, .call, .call, .call]

def sampleEnd : State where
  chunksLeft := []
  messagesLeft := []
  closed := true
  ended := true
  chunkQueue := []
  messageQueue := []
  current := []
  handle := false
  pc := .flushed
  packets := [bandPacket 2 [49], bandPacket 1 [80, 65], bandPacket 1 [67], bandPacket 2 [50], .flush]

theorem streamed_sampleEnd : Streamed sampleGenerator sampleEnd :=
  streamed (@Runs.of_runList _ _ (step sampleGenerator true) _ _ (start sampleGenerator true) _
    sampleSchedule (by decide +kernel))

end Mizzle.Fetch.Streaming
