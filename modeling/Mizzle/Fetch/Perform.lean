import Mizzle.Pack.Fetch
import Mizzle.Proto.Fetch
import Mizzle.Proto.PktLine

/-!
# Fetch responses

`perform_fetch`, `perform_fetch_v1` and `stream_pack_sideband` of `mizzle/src/fetch.rs`. A response
is a computation that writes packets and may fail at any point; what has been written before stays
written. The calls of `build_pack` are recorded with the packets. `Writes` says what a computation
that succeeds writes, and the lemmas about it follow the code.

`text_to_write` and `band_to_write` of `gix_packetline` refuse a payload that is empty or too long
for a packet, before they write anything.
-/

namespace Mizzle.Fetch

open Lib Pack

/-- The arguments of a `build_pack` call. -/
structure BuildCall where
  want : List ObjectId
  haves : List ObjectId
  opts : PackOptions
deriving DecidableEq

structure FetchLog where
  packets : List PacketLine := []
  calls : List BuildCall := []
deriving DecidableEq

abbrev FetchM := ExceptT String (StateM FetchLog)

def writePacket (packet : PacketLine) : FetchM Unit :=
  modify fun log => { log with packets := log.packets ++ [packet] }

/-- A data packet, with what is put before and after the payload. -/
def dataToWrite (before payload after : Bytes) : FetchM Unit :=
  if before.length + payload.length + after.length > Proto.maxDataLen then throw "Cannot encode more than 65516 bytes"
  else if payload = [] then throw "Empty lines are invalid"
  else writePacket (.data (before ++ payload ++ after))

def textToWrite (text : Bytes) : FetchM Unit := dataToWrite [] text [10]

def bandToWrite (channel : UInt8) (payload : Bytes) : FetchM Unit :=
  dataToWrite [channel] payload []

def flushToWrite : FetchM Unit := writePacket .flush

def delimToWrite : FetchM Unit := writePacket .delimiter

/-- `Channel::Data`. -/
def channelData : UInt8 := 1

/-- `Channel::Progress`. -/
def channelProgress : UInt8 := 2

/-- `MAX_SIDEBAND`: the size of the read buffer. -/
def maxSideband : Nat := 65516 - 16

/-- `PackOutput`. The reader is given by what its reads return until it returns nothing or fails;
the receiver by the messages that are pending each time it is drained. -/
structure PackOutput where
  chunks : List Bytes
  failure : Option String := none
  shallow : List ObjectId := []
  progress : Option (Nat → List Bytes) := none
  /-- A read fills at most the buffer, and a read of nothing is the end. -/
  chunk_size : ∀ chunk ∈ chunks, chunk ≠ [] ∧ chunk.length ≤ maxSideband

/-- What a fetch uses of a `StorageBackend`. -/
structure FetchBackend where
  hasObjects : List ObjectId → Except String (List Bool)
  buildPack : List ObjectId → List ObjectId → PackOptions → Except String PackOutput

/-- The pending progress messages. -/
def drain (progress : Option (Nat → List Bytes)) (round : Nat) : FetchM Unit :=
  match progress with
  | some pending => (pending round).forM (bandToWrite channelProgress)
  | none => pure ()

/-- The loop of `stream_pack_sideband`: the rounds that read a chunk, and the one that meets
the end. -/
def streamChunks (progress : Option (Nat → List Bytes)) (failure : Option String) :
    Nat → List Bytes → FetchM Nat
  | round, [] => do
    drain progress round
    match failure with
    | some e => throw e
    | none => return round + 1
  | round, chunk :: chunks => do
    drain progress round
    bandToWrite channelData chunk
    streamChunks progress failure (round + 1) chunks

def streamPackSideband (output : PackOutput) (progress : Option (Nat → List Bytes)) :
    FetchM Unit := do
  let round ← streamChunks progress output.failure 0 output.chunks
  drain progress round

/-- `Filter::parse`. -/
def parseFilter (spec : String) : Except String Filter :=
  if spec = "blob:none" then .ok .blobNone
  else if spec = "tree:0" then .ok .treeNone
  else .error s!"unsupported filter: {spec}"

/-- `args.filter.as_deref().map(Filter::parse).transpose()`. -/
def parseFilterArg : Option String → Except String (Option Filter)
  | none => .ok none
  | some spec => (parseFilter spec).map some

def knownHaves (haves : List ObjectId) (known : List Bool) : List ObjectId :=
  (haves.zip known).filterMap fun (oid, known) => if known then some oid else none

def callBuildPack (backend : FetchBackend) (args : FetchArgs) (haves : List ObjectId) :
    FetchM PackOutput := do
  let filter ← parseFilterArg args.filter
  let opts : PackOptions := ⟨args.deepen, filter, args.thinPack⟩
  modify fun log => { log with calls := log.calls ++ [⟨args.want, haves, opts⟩] }
  backend.buildPack args.want haves opts

/-- The pack on the sideband, and the flush packet at the end. -/
def sendPack (args : FetchArgs) (output : PackOutput) : FetchM Unit := do
  streamPackSideband output (if args.noProgress then none else output.progress)
  flushToWrite

def sendAcks (haves : List ObjectId) : FetchM Unit :=
  if haves.isEmpty then textToWrite (utf8 "NAK")
  else haves.forM fun ack => textToWrite (utf8 "ACK " ++ ack.toHex)

/-- The end of the acknowledgments section. -/
def endAcks (ready : Bool) : FetchM Unit :=
  if ready then do
    textToWrite (utf8 "ready")
    delimToWrite
  else flushToWrite

/-- The acknowledgments section; whether a pack follows. -/
def acknowledge (args : FetchArgs) (haves : List ObjectId) : FetchM Bool := do
  let ready := !haves.isEmpty && !args.waitForDone
  textToWrite (utf8 "acknowledgments")
  sendAcks haves
  endAcks ready
  return ready

/-- The shallow-info section, if there is anything to say. -/
def shallowInfo (shallow : List ObjectId) : FetchM Unit := do
  if !shallow.isEmpty then
    textToWrite (utf8 "shallow-info")
    shallow.forM fun oid => textToWrite (utf8 "shallow " ++ oid.toHex)
    delimToWrite

/-- `perform_fetch`. -/
def performFetch (backend : FetchBackend) (args : FetchArgs) : FetchM Unit := do
  let known ← backend.hasObjects args.haves
  let haves := knownHaves args.haves known
  let goOn ← if args.done then pure true else acknowledge args haves
  if goOn then
    let output ← callBuildPack backend args haves
    shallowInfo output.shallow
    textToWrite (utf8 "packfile")
    sendPack args output

/-- `perform_fetch_v1`. -/
def performFetchV1 (backend : FetchBackend) (args : FetchArgs) : FetchM Unit := do
  let known ← backend.hasObjects args.haves
  let haves := knownHaves args.haves known
  let output ← callBuildPack backend args haves
  output.shallow.forM fun oid => textToWrite (utf8 "shallow " ++ oid.toHex)
  textToWrite (utf8 "NAK")
  sendPack args output

/-! ### What is written -/

/-- The result of a computation, and what has been written when it ends. -/
def FetchM.runFrom {α : Type} (m : FetchM α) (log : FetchLog) : Except String α × FetchLog := m log

def FetchM.exec {α : Type} (m : FetchM α) : Except String α × FetchLog := m.runFrom {}

/-- The computation succeeds, and adds these packets and calls. -/
def Writes {α : Type} (m : FetchM α) (packets : List PacketLine) (calls : List BuildCall) (a : α) :
    Prop :=
  ∀ log : FetchLog, m.runFrom log = (.ok a, ⟨log.packets ++ packets, log.calls ++ calls⟩)

variable {α β : Type} {m : FetchM α} {f : α → FetchM β}

theorem runFrom_bind (m : FetchM α) (f : α → FetchM β) (log : FetchLog) :
    (m >>= f).runFrom log =
      match m.runFrom log with
      | (.ok a, log') => (f a).runFrom log'
      | (.error e, log') => (.error e, log') := by
  simp only [FetchM.runFrom, bind, ExceptT.bind, ExceptT.mk, StateT.bind, ExceptT.bindCont]
  rcases m log with ⟨e | a, log'⟩
  · rfl
  · rfl

namespace Writes

variable {ps ps' : List PacketLine} {cs cs' : List BuildCall} {a : α} {b : β}

theorem exec (h : Writes m ps cs a) : m.exec = (.ok a, ⟨ps, cs⟩) := h {}

theorem bind (h : Writes m ps cs a) (h' : Writes (f a) ps' cs' b) :
    Writes (m >>= f) (ps ++ ps') (cs ++ cs') b := by
  intro log
  rw [runFrom_bind, h log]
  simpa using h' ⟨log.packets ++ ps, log.calls ++ cs⟩

theorem cast (h : Writes m ps cs a) (hps : ps = ps') (hcs : cs = cs') : Writes m ps' cs' a :=
  hps ▸ hcs ▸ h

theorem pure (a : α) : Writes (Pure.pure a : FetchM α) [] [] a := by
  rintro ⟨packets, calls⟩
  rw [List.append_nil, List.append_nil]
  rfl

theorem of_ok {x : Except String α} (h : x = .ok a) : Writes (liftM x : FetchM α) [] [] a := by
  subst h
  exact pure a

theorem packet (p : PacketLine) : Writes (writePacket p) [p] [] () := by
  rintro ⟨packets, calls⟩
  rw [List.append_nil]
  rfl

theorem forM {γ : Type} {act : γ → FetchM Unit} {packet : γ → PacketLine} {xs : List γ}
    (h : ∀ x ∈ xs, Writes (act x) [packet x] [] ()) :
    Writes (xs.forM act) (xs.map packet) [] () := by
  induction xs with
  | nil => exact pure ()
  | cons x xs ih => exact (h x List.mem_cons_self).bind (ih fun y hy => h y (List.mem_cons_of_mem _ hy))

end Writes

theorem writes_dataToWrite {before payload after : Bytes} (hne : payload ≠ [])
    (hfits : before.length + payload.length + after.length ≤ Proto.maxDataLen) :
    Writes (dataToWrite before payload after) [.data (before ++ payload ++ after)] [] () := by
  rw [dataToWrite, if_neg (by omega), if_neg hne]
  exact .packet _

def textPacket (text : Bytes) : PacketLine := .data (text ++ [10])

def bandPacket (channel : UInt8) (payload : Bytes) : PacketLine := .data (channel :: payload)

theorem writes_text {text : Bytes} (hne : text ≠ []) (hfits : text.length < Proto.maxDataLen) :
    Writes (textToWrite text) [textPacket text] [] () := by
  have hwrites := @writes_dataToWrite [] text [10] hne (by simpa [Nat.add_comm] using hfits)
  simpa [textToWrite, textPacket] using hwrites

theorem writes_oidLine {word : Bytes} (hword : word ≠ []) (hlength : word.length ≤ 100)
    (oid : ObjectId) :
    Writes (textToWrite (word ++ oid.toHex)) [textPacket (word ++ oid.toHex)] [] () := by
  have hhex := ObjectId.length_of_fromHex oid.fromHex_toHex
  refine writes_text (by simp [hword]) ?_
  rw [List.length_append, hhex, Proto.maxDataLen]
  omega

theorem writes_band {channel : UInt8} {payload : Bytes} (hne : payload ≠ [])
    (hfits : payload.length < Proto.maxDataLen) :
    Writes (bandToWrite channel payload) [bandPacket channel payload] [] () := by
  have hwrites := @writes_dataToWrite [channel] payload [] hne (by simpa [Nat.add_comm] using hfits)
  simpa [bandToWrite, bandPacket] using hwrites

end Mizzle.Fetch
