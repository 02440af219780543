import Mizzle.Fetch.Perform

/-!
# Clients read fetch responses

Decoders for the two response grammars of git, and what they recover from the packets that the
server writes. A v2 response always decodes (`performFetch_decodable`), provided that no progress
message is empty: `band_to_write` refuses an empty payload, which ends the response in the middle
(`empty_progress_breaks`).

A v1 client that has sent `deepen` expects the shallow lines to end in a flush packet.
`perform_fetch_v1` writes none, so such a client is never served
(`performFetchV1_decodable_iff`).
-/

namespace Mizzle.Fetch

open Lib Pack

/-! ### Decoders -/

def PacketLine.text : PacketLine → Option Bytes
  | .data bytes => some (Receive.stripNewline bytes)
  | _ => none

def PacketLine.oid (word : Bytes) (packet : PacketLine) : Option ObjectId :=
  (packet.text.bind word.isPrefixOf?).bind ObjectId.fromHex

/-- The lines with this word and an oid that come first, and the rest. -/
def takeOids (word : Bytes) : List PacketLine → List ObjectId × List PacketLine
  | [] => ([], [])
  | packet :: rest =>
    match packet.oid word with
    | some oid => (oid :: (takeOids word rest).1, (takeOids word rest).2)
    | none => ([], packet :: rest)

/-- The rest after a line with this text. -/
def takeLine (text : Bytes) : List PacketLine → Option (List PacketLine)
  | [] => none
  | packet :: rest => if packet.text = some text then some rest else none

/-- The pack on the sideband up to the flush packet, which is the last one. -/
def decodeBands : List PacketLine → Option Bytes
  | [.flush] => some []
  | .data (1 :: chunk) :: rest => (decodeBands rest).map (chunk ++ ·)
  | .data (2 :: _) :: rest => decodeBands rest
  | _ => none

structure Acknowledgments where
  nak : Bool
  acks : List ObjectId
  ready : Bool
deriving DecidableEq

structure Response where
  acknowledgments : Option Acknowledgments
  shallow : List ObjectId
  pack : Option Bytes
deriving DecidableEq

/-- `(nak | *ack) (ready)`, after the header of the section. -/
def decodeAcks (packets : List PacketLine) : Acknowledgments × List PacketLine :=
  let nak := (takeLine (utf8 "NAK") packets).isSome
  let rest := (takeLine (utf8 "NAK") packets).getD packets
  let acks := takeOids (utf8 "ACK ") rest
  match takeLine (utf8 "ready") acks.2 with
  | some rest => (⟨nak, acks.1, true⟩, rest)
  | none => (⟨nak, acks.1, false⟩, acks.2)

/-- `[shallow-info delim] packfile flush`. -/
def decodePack (acknowledgments : Option Acknowledgments) (packets : List PacketLine) :
    Option Response :=
  match takeLine (utf8 "shallow-info") packets with
  | some rest =>
    match takeOids (utf8 "shallow ") rest with
    | (shallow, .delimiter :: rest) =>
      (takeLine (utf8 "packfile") rest).bind fun rest =>
        (decodeBands rest).map fun pack => ⟨acknowledgments, shallow, some pack⟩
    | _ => none
  | none =>
    (takeLine (utf8 "packfile") packets).bind fun rest =>
      (decodeBands rest).map fun pack => ⟨acknowledgments, [], some pack⟩

/-- `acknowledgments flush | [acknowledgments delim] [shallow-info delim] packfile flush`. -/
def decodeV2 (packets : List PacketLine) : Option Response :=
  match takeLine (utf8 "acknowledgments") packets with
  | some rest =>
    match decodeAcks rest with
    | (acks, [.flush]) => some ⟨some acks, [], none⟩
    | (acks, .delimiter :: rest) => decodePack (some acks) rest
    | _ => none
  | none => decodePack none packets

/-- `NAK`, then the pack. -/
def decodeNak (shallow : List ObjectId) (packets : List PacketLine) :
    Option (List ObjectId × Bytes) :=
  (takeLine (utf8 "NAK") packets).bind fun rest => (decodeBands rest).map (shallow, ·)

/-- A v1 response; after `deepen` it begins with shallow lines up to a flush packet. -/
def decodeV1 (deepen : Bool) (packets : List PacketLine) : Option (List ObjectId × Bytes) :=
  if deepen then
    match takeOids (utf8 "shallow ") packets with
    | (shallow, .flush :: rest) => decodeNak shallow rest
    | _ => none
  else decodeNak [] packets

/-! ### Lines -/

theorem text_textPacket (text : Bytes) : (textPacket text).text = some text := by
  rw [textPacket, PacketLine.text, Receive.stripNewline_append]

theorem oid_textPacket (word : Bytes) (oid : ObjectId) :
    (textPacket (word ++ oid.toHex)).oid word = some oid := by
  have hword : word.isPrefixOf? (word ++ oid.toHex) = some oid.toHex := List.isPrefixOf?_eq_some_iff_append_eq.mpr rfl
  rw [PacketLine.oid, text_textPacket, Option.bind_some, hword, Option.bind_some, ObjectId.fromHex_toHex]

@[simp] theorem takeLine_textPacket (text : Bytes) (rest : List PacketLine) :
    takeLine text (textPacket text :: rest) = some rest := by
  rw [takeLine, if_pos (text_textPacket text)]

theorem takeLine_ne {text text' : Bytes} (h : text' ≠ text) (rest : List PacketLine) :
    takeLine text (textPacket text' :: rest) = none := by
  rw [takeLine, text_textPacket, if_neg fun heq => h (Option.some.inj heq)]

theorem takeOids_lines (word : Bytes) (oids : List ObjectId) {packet : PacketLine}
    (hpacket : packet.oid word = none) (rest : List PacketLine) :
    takeOids word (oids.map (fun oid => textPacket (word ++ oid.toHex)) ++ packet :: rest) =
      (oids, packet :: rest) := by
  induction oids with
  | nil => rw [List.map_nil, List.nil_append, takeOids, hpacket]
  | cons oid oids ih => rw [List.map_cons, List.cons_append, takeOids, oid_textPacket, ih]

/-! ### The sideband -/

/-- Packets on the data and progress channels, whose data is the pack. -/
inductive Bands : List PacketLine → Bytes → Prop
  | nil : Bands [] []
  | data (chunk : Bytes) {packets : List PacketLine} {pack : Bytes} (h : Bands packets pack) :
    Bands (bandPacket channelData chunk :: packets) (chunk ++ pack)
  | progress (message : Bytes) {packets : List PacketLine} {pack : Bytes} (h : Bands packets pack) :
    Bands (bandPacket channelProgress message :: packets) pack

theorem Bands.append {ps ps' : List PacketLine} {pack pack' : Bytes} (h : Bands ps pack)
    (h' : Bands ps' pack') : Bands (ps ++ ps') (pack ++ pack') := by
  induction h with
  | nil => exact h'
  | data chunk _ ih =>
    rw [List.append_assoc]
    exact .data chunk ih
  | progress message _ ih => exact .progress message ih

theorem Bands.decode {ps : List PacketLine} {pack : Bytes} (h : Bands ps pack) :
    decodeBands (ps ++ [.flush]) = some pack := by
  induction h with
  | nil => rfl
  | data chunk h ih =>
    rw [List.cons_append, bandPacket, channelData, decodeBands, ih, Option.map_some]
  | progress message h ih => rwa [List.cons_append, bandPacket, channelProgress, decodeBands]

/-- The messages can be written, and the reader does not fail. -/
structure Sendable (output : PackOutput) : Prop where
  failure : output.failure = none
  message : ∀ pending, output.progress = some pending → ∀ round, ∀ m ∈ pending round, m ≠ [] ∧
    m.length < Proto.maxDataLen

theorem writes_drain {progress : Option (Nat → List Bytes)}
    (h : ∀ pending, progress = some pending → ∀ round, ∀ m ∈ pending round, m ≠ [] ∧
      m.length < Proto.maxDataLen) (round : Nat) :
    ∃ ps, Writes (drain progress round) ps [] () ∧ Bands ps [] := by
  cases progress with
  | none => exact ⟨[], .pure (), .nil⟩
  | some pending =>
    have hround := h pending rfl round
    refine ⟨(pending round).map (bandPacket channelProgress), .forM fun m hm =>
      writes_band (hround m hm).1 (hround m hm).2, ?_⟩
    clear hround
    induction pending round with
    | nil => exact .nil
    | cons m ms ih => exact .progress m ih

theorem writes_streamChunks {progress : Option (Nat → List Bytes)}
    (h : ∀ pending, progress = some pending → ∀ round, ∀ m ∈ pending round, m ≠ [] ∧
      m.length < Proto.maxDataLen) {chunks : List Bytes}
    (hchunks : ∀ c ∈ chunks, c ≠ [] ∧ c.length ≤ maxSideband) (round : Nat) :
    ∃ ps round', Writes (streamChunks progress none round chunks) ps [] round' ∧
      Bands ps chunks.flatten := by
  induction chunks generalizing round with
  | nil =>
    obtain ⟨ps, hwrites, hbands⟩ := writes_drain h round
    exact ⟨ps ++ [], round + 1, hwrites.bind (.pure _), hbands.append .nil⟩
  | cons c cs ih =>
    obtain ⟨ps, hwrites, hbands⟩ := writes_drain h round
    obtain ⟨ps', round', hwrites', hbands'⟩ := ih (fun c hc => hchunks c (List.mem_cons_of_mem _ hc)) (round + 1)
    obtain ⟨hne, hfits⟩ := hchunks c List.mem_cons_self
    exact ⟨_, round', hwrites.bind ((writes_band hne (hfits.trans_lt (by decide))).bind hwrites'),
      hbands.append (.data c hbands')⟩

/-- **The pack comes through the sideband.** -/
theorem writes_sendPack {output : PackOutput} (h : Sendable output) (args : FetchArgs) :
    ∃ ps, Writes (sendPack args output) (ps ++ [.flush]) [] () ∧
      Bands ps output.chunks.flatten := by
  have hmessage : ∀ pending, (if args.noProgress then none else output.progress) = some pending →
      ∀ round, ∀ m ∈ pending round, m ≠ [] ∧ m.length < Proto.maxDataLen := by
    intro pending hpending
    split at hpending
    · simp at hpending
    · exact h.message pending hpending
  obtain ⟨ps, round, hwrites, hbands⟩ := writes_streamChunks hmessage output.chunk_size 0
  obtain ⟨ps', hwrites', hbands'⟩ := writes_drain hmessage round
  refine ⟨ps ++ ps', ?_, by simpa using hbands.append hbands'⟩
  have hstream : Writes (streamPackSideband output (if args.noProgress then none
      else output.progress)) (ps ++ ps') [] () := by
    rw [streamPackSideband, h.failure]
    exact hwrites.bind hwrites'
  exact hstream.bind (.packet .flush)

/-! ### Sections -/

theorem writes_callBuildPack {backend : FetchBackend} {args : FetchArgs} {haves : List ObjectId}
    {filter : Option Filter} {output : PackOutput}
    (hfilter : parseFilterArg args.filter = .ok filter)
    (hbuild : backend.buildPack args.want haves ⟨args.deepen, filter, args.thinPack⟩ = .ok output) :
    Writes (callBuildPack backend args haves) []
      [⟨args.want, haves, ⟨args.deepen, filter, args.thinPack⟩⟩] output := by
  have hlog : ∀ call, Writes (modify fun log : FetchLog =>
      { log with calls := log.calls ++ [call] } : FetchM Unit) [] [call] () := by
    rintro call ⟨packets, calls⟩
    rw [List.append_nil]
    rfl
  exact (Writes.of_ok hfilter).bind ((hlog _).bind (.of_ok hbuild))

def ackLines (haves : List ObjectId) : List PacketLine :=
  if haves.isEmpty then [textPacket (utf8 "NAK")] else haves.map fun oid => textPacket (utf8 "ACK " ++ oid.toHex)

/-- Whether the server declares itself ready. -/
def isReady (args : FetchArgs) (haves : List ObjectId) : Bool := !haves.isEmpty && !args.waitForDone

def ackEnd (ready : Bool) : List PacketLine :=
  if ready then [textPacket (utf8 "ready"), .delimiter] else [.flush]

theorem writes_sendAcks (haves : List ObjectId) :
    Writes (sendAcks haves) (ackLines haves) [] () := by
  rw [sendAcks, ackLines]
  split
  · exact writes_text (by decide) (by decide)
  · exact .forM fun oid _ => writes_oidLine (by decide) (by decide) oid

theorem writes_endAcks (ready : Bool) : Writes (endAcks ready) (ackEnd ready) [] () := by
  rw [endAcks, ackEnd]
  split
  · exact (writes_text (by decide) (by decide)).bind (.packet _)
  · exact .packet _

theorem writes_acknowledge (args : FetchArgs) (haves : List ObjectId) :
    Writes (acknowledge args haves)
      (textPacket (utf8 "acknowledgments") :: (ackLines haves ++ ackEnd (isReady args haves))) []
        (isReady args haves) := by
  have hheader : Writes (textToWrite (utf8 "acknowledgments")) [textPacket (utf8 "acknowledgments")] [] () :=
    writes_text (by decide) (by decide)
  refine .cast (hheader.bind ((writes_sendAcks haves).bind
    ((writes_endAcks _).bind (.pure (isReady args haves))))) ?_ rfl
  simp [isReady]

theorem decodeAcks_ackLines (haves : List ObjectId) (ready : Bool) (rest : List PacketLine) :
    decodeAcks (ackLines haves ++ (ackEnd ready ++ rest)) =
      (⟨haves.isEmpty, haves, ready⟩, (if ready then PacketLine.delimiter else .flush) :: rest) := by
  have hacks : ∀ packet : PacketLine, packet.oid (utf8 "ACK ") = none → ∀ tail,
      (takeLine (utf8 "NAK") (ackLines haves ++ packet :: tail)).isSome = haves.isEmpty ∧
      takeOids (utf8 "ACK ") ((takeLine (utf8 "NAK") (ackLines haves ++ packet :: tail)).getD
        (ackLines haves ++ packet :: tail)) = (haves, packet :: tail) := by
    intro packet hpacket tail
    cases haves with
    | nil => simp [ackLines, takeOids, hpacket]
    | cons oid oids =>
      have hne : utf8 "ACK " ++ oid.toHex ≠ utf8 "NAK" := by
        intro heq
        have hhead : some (65 : UInt8) = some 78 := congrArg List.head? heq
        exact absurd hhead (by decide)
      have hnak : takeLine (utf8 "NAK") (ackLines (oid :: oids) ++ packet :: tail) = none := takeLine_ne hne _
      rw [hnak]
      exact ⟨rfl, takeOids_lines (utf8 "ACK ") (oid :: oids) hpacket tail⟩
  cases ready with
  | true =>
    obtain ⟨hnak, hoids⟩ := hacks (textPacket (utf8 "ready")) rfl (.delimiter :: rest)
    simp only [ackEnd, decodeAcks, if_true, List.cons_append, List.nil_append, hnak, hoids, takeLine_textPacket]
  | false =>
    obtain ⟨hnak, hoids⟩ := hacks .flush rfl rest
    simp only [ackEnd, decodeAcks, Bool.false_eq_true, if_false, List.cons_append, List.nil_append, hnak, hoids]
    rfl

/-- The packets of a response from the shallow-info section on. -/
def packPackets (shallow : List ObjectId) (bands : List PacketLine) : List PacketLine :=
  (if shallow.isEmpty then [] else textPacket (utf8 "shallow-info") ::
    (shallow.map (fun oid => textPacket (utf8 "shallow " ++ oid.toHex)) ++ [.delimiter])) ++
    textPacket (utf8 "packfile") :: (bands ++ [.flush])

theorem writes_shallowInfo (shallow : List ObjectId) :
    Writes (shallowInfo shallow) (if shallow.isEmpty then []
      else textPacket (utf8 "shallow-info") ::
      (shallow.map (fun oid => textPacket (utf8 "shallow " ++ oid.toHex)) ++ [.delimiter])) [] () := by
  rw [shallowInfo]
  cases hempty : shallow.isEmpty with
  | true => exact .pure ()
  | false =>
    exact (writes_text (by decide) (by decide)).bind
      ((Writes.forM fun oid _ => writes_oidLine (by decide) (by decide) oid).bind (.packet _))

theorem decodePack_packPackets (acks : Option Acknowledgments) (shallow : List ObjectId)
    {bands : List PacketLine} {pack : Bytes} (h : Bands bands pack) :
    decodePack acks (packPackets shallow bands) = some ⟨acks, shallow, some pack⟩ := by
  cases shallow with
  | nil =>
    have hnone : takeLine (utf8 "shallow-info") (packPackets [] bands) = none := takeLine_ne (by decide) _
    rw [decodePack, hnone]
    simp [packPackets, h.decode]
  | cons oid oids =>
    have hsome : takeLine (utf8 "shallow-info") (packPackets (oid :: oids) bands) =
        some ((oid :: oids).map (fun oid => textPacket (utf8 "shallow " ++ oid.toHex)) ++
          .delimiter :: textPacket (utf8 "packfile") :: (bands ++ [.flush])) := by
      simp [packPackets]
    have hoids := @takeOids_lines (utf8 "shallow ") (oid :: oids) .delimiter rfl
    rw [decodePack, hsome]
    simp only [hoids, takeLine_textPacket, Option.bind_some, h.decode, Option.map_some]

/-! ### Protocol v2 -/

/-- What a v2 client recovers: the server's answer to the haves, the pack and the shallow commits of
the backend, and that the backend was asked once, with the haves that are known, exactly if a pack
is sent. -/
structure ServedV2 (args : FetchArgs) (haves : List ObjectId) (opts : PackOptions)
    (output : PackOutput) (log : FetchLog) (response : Response) : Prop where
  decoded : decodeV2 log.packets = some response
  acknowledgments : response.acknowledgments = none ↔ args.done = true
  acks : ∀ acks, response.acknowledgments = some acks → acks.acks = haves
  nak : ∀ acks, response.acknowledgments = some acks → (acks.nak = true ↔ haves = [])
  ready : (∃ acks, response.acknowledgments = some acks ∧ acks.ready = true) ↔
    args.done = false ∧ haves ≠ [] ∧ args.waitForDone = false
  packfile : response.pack ≠ none ↔
    args.done = true ∨ ∃ acks, response.acknowledgments = some acks ∧ acks.ready = true
  pack : ∀ pack, response.pack = some pack → pack = output.chunks.flatten ∧ response.shallow = output.shallow
  calls : log.calls = if response.pack = none then [] else [⟨args.want, haves, opts⟩]

theorem decodeV2_of_acks (haves : List ObjectId) (ready : Bool) (rest : List PacketLine) :
    decodeV2 (textPacket (utf8 "acknowledgments") :: (ackLines haves ++ (ackEnd ready ++ rest))) =
      if ready then decodePack (some ⟨haves.isEmpty, haves, ready⟩) rest
      else if rest = [] then some ⟨some ⟨haves.isEmpty, haves, ready⟩, [], none⟩ else none := by
  rw [decodeV2, takeLine_textPacket]
  simp only [decodeAcks_ackLines]
  cases ready with
  | true => rfl
  | false => cases rest <;> rfl

variable {backend : FetchBackend} {args : FetchArgs} {known : List Bool} {filter : Option Filter}
  {output : PackOutput}

theorem writes_pack (hsendable : Sendable output)
    (hfilter : parseFilterArg args.filter = .ok filter) {haves : List ObjectId}
    (hbuild : backend.buildPack args.want haves ⟨args.deepen, filter, args.thinPack⟩ = .ok output) :
    ∃ bands, Bands bands output.chunks.flatten ∧
      Writes (do
        let output ← callBuildPack backend args haves
        shallowInfo output.shallow
        textToWrite (utf8 "packfile")
        sendPack args output) (packPackets output.shallow bands)
        [⟨args.want, haves, ⟨args.deepen, filter, args.thinPack⟩⟩] () := by
  obtain ⟨bands, hsend, hbands⟩ := writes_sendPack hsendable args
  have hheader : Writes (textToWrite (utf8 "packfile")) [textPacket (utf8 "packfile")] [] () :=
    writes_text (by decide) (by decide)
  refine ⟨bands, hbands, .cast ((writes_callBuildPack hfilter hbuild).bind
    ((writes_shallowInfo output.shallow).bind (hheader.bind hsend))) ?_ rfl⟩
  simp [packPackets]

/-- **A v2 response decodes**, whatever the haves, the flags, the pack and the shallow commits, if
no progress message is empty. -/
theorem performFetch_decodable (hhas : backend.hasObjects args.haves = .ok known)
    (hfilter : parseFilterArg args.filter = .ok filter)
    (hbuild : backend.buildPack args.want (knownHaves args.haves known) ⟨args.deepen, filter,
      args.thinPack⟩ = .ok output) (hsendable : Sendable output) :
    ∃ log response, (performFetch backend args).exec = (.ok (), log) ∧
      ServedV2 args (knownHaves args.haves known) ⟨args.deepen, filter, args.thinPack⟩ output log response := by
  obtain ⟨bands, hbands, hpack⟩ := writes_pack hsendable hfilter hbuild
  have hpackDecoded := fun acks => decodePack_packPackets acks output.shallow hbands
  generalize hhaves : knownHaves args.haves known = haves at hpack ⊢
  cases hdone : args.done with
  | true =>
    have hwrites : Writes (performFetch backend args) (packPackets output.shallow bands)
        [⟨args.want, haves, ⟨args.deepen, filter, args.thinPack⟩⟩] () := by
      subst hhaves
      rw [performFetch, hdone]
      exact .cast ((Writes.of_ok hhas).bind ((Writes.pure true).bind hpack)) rfl rfl
    have hdecoded : decodeV2 (packPackets output.shallow bands) = some ⟨none, output.shallow,
        some output.chunks.flatten⟩ := by
      have hnone : takeLine (utf8 "acknowledgments") (packPackets output.shallow bands) = none := by
        rw [packPackets]
        split
        · exact takeLine_ne (by decide) _
        · exact takeLine_ne (by decide) _
      rw [decodeV2, hnone]
      exact hpackDecoded none
    refine ⟨_, _, hwrites.exec, ⟨hdecoded, ?_, ?_, ?_, ?_, ?_, ?_, ?_⟩⟩ <;> simp [hdone]
  | false =>
    have hacks := writes_acknowledge args haves
    have hready : isReady args haves = true ↔ haves ≠ [] ∧ args.waitForDone = false := by
      simp [isReady]
    cases hisReady : isReady args haves with
    | true =>
      rw [hisReady] at hacks
      have hwrites : Writes (performFetch backend args) (textPacket (utf8 "acknowledgments") :: (ackLines haves ++
          (ackEnd true ++ packPackets output.shallow bands)))
          [⟨args.want, haves, ⟨args.deepen, filter, args.thinPack⟩⟩] () := by
        subst hhaves
        rw [performFetch, hdone]
        exact .cast ((Writes.of_ok hhas).bind (hacks.bind hpack)) (by simp) rfl
      have hdecoded := decodeV2_of_acks haves true (packPackets output.shallow bands)
      rw [if_pos rfl, hpackDecoded] at hdecoded
      refine ⟨_, _, hwrites.exec, ⟨hdecoded, ?_, ?_, ?_, ?_, ?_, ?_, ?_⟩⟩ <;> simp [hdone, hready.mp hisReady]
    | false =>
      rw [hisReady] at hacks
      have hwrites : Writes (performFetch backend args) (textPacket (utf8 "acknowledgments") :: (ackLines haves ++
          ackEnd false)) [] () := by
        subst hhaves
        rw [performFetch, hdone]
        exact .cast ((Writes.of_ok hhas).bind (hacks.bind (.pure ()))) (by simp) rfl
      have hdecoded := decodeV2_of_acks haves false []
      rw [if_neg (by decide), List.append_nil] at hdecoded
      have hnot : ¬ (haves ≠ [] ∧ args.waitForDone = false) := fun h => by simp [hready.mpr h] at hisReady
      refine ⟨_, _, hwrites.exec, ⟨hdecoded, ?_, ?_, ?_, ?_, ?_, ?_, ?_⟩⟩
      all_goals first | simp [hdone]; done | simpa [hdone] using hnot

/-! ### Small responses -/

/-- A pack of two bytes in two reads, with these shallow commits and progress messages. -/
def smallPack (shallow : List ObjectId) (messages : List Bytes) : PackOutput where
  chunks := [[80], [75]]
  shallow := shallow
  progress := some fun _ => messages
  chunk_size := by decide

/-- A backend that knows the first of two haves, and has this pack. -/
def smallBackend (output : PackOutput) : FetchBackend where
  hasObjects _ := .ok [true, false]
  buildPack _ _ _ := .ok output

theorem sendable_smallPack {shallow : List ObjectId} {messages : List Bytes}
    (h : ∀ m ∈ messages, m ≠ [] ∧ m.length < Proto.maxDataLen) :
    Sendable (smallPack shallow messages) where
  failure := rfl
  message pending hpending round m hm := by
    obtain rfl : (fun _ => messages) = pending := Option.some.inj hpending
    exact h m hm

def smallArgs : FetchArgs := { want := [.fill 1], haves := [.fill 2, .fill 3], deepen := some 1 }

theorem performFetch_decodable_smallArgs : ∃ log response,
    (performFetch (smallBackend (smallPack [.fill 1] [[49]])) smallArgs).exec = (.ok (), log) ∧
    ServedV2 smallArgs [.fill 2] ⟨some 1, none, false⟩ (smallPack [.fill 1] [[49]]) log response :=
  @performFetch_decodable (smallBackend (smallPack [.fill 1] [[49]])) smallArgs [true, false] none _ rfl rfl rfl
    (sendable_smallPack (by decide))

/-- **An empty progress message ends the response in the middle**: it is refused before it is
written, and the client is left with the acknowledgments and the header of the pack. -/
theorem empty_progress_breaks :
    (performFetch (smallBackend (smallPack [] [[]])) smallArgs).exec =
      (.error "Empty lines are invalid",
        ⟨[textPacket (utf8 "acknowledgments"), textPacket (utf8 "ACK " ++ (ObjectId.fill 2).toHex),
        textPacket (utf8 "ready"), .delimiter, textPacket (utf8 "packfile")],
        [⟨[.fill 1], [.fill 2], ⟨some 1, none, false⟩⟩]⟩) ∧
    decodeV2 (performFetch (smallBackend (smallPack [] [[]])) smallArgs).exec.2.packets = none := by
  constructor
  · rfl
  · decide +kernel

/-! ### Protocol v1 -/

theorem takeOids_shallow (shallow : List ObjectId) (rest : List PacketLine) :
    takeOids (utf8 "shallow ") (shallow.map (fun oid =>
      textPacket (utf8 "shallow " ++ oid.toHex)) ++
      textPacket (utf8 "NAK") :: rest) = (shallow, textPacket (utf8 "NAK") :: rest) :=
  takeOids_lines (utf8 "shallow ") shallow rfl rest

theorem writes_performFetchV1 (hhas : backend.hasObjects args.haves = .ok known)
    (hfilter : parseFilterArg args.filter = .ok filter)
    (hbuild : backend.buildPack args.want (knownHaves args.haves known) ⟨args.deepen, filter,
      args.thinPack⟩ = .ok output) (hsendable : Sendable output) :
    ∃ bands, Bands bands output.chunks.flatten ∧ Writes (performFetchV1 backend args)
      (output.shallow.map (fun oid => textPacket (utf8 "shallow " ++ oid.toHex)) ++
        textPacket (utf8 "NAK") :: (bands ++ [.flush]))
      [⟨args.want, knownHaves args.haves known, ⟨args.deepen, filter, args.thinPack⟩⟩] () := by
  obtain ⟨bands, hsend, hbands⟩ := writes_sendPack hsendable args
  have hnak : Writes (textToWrite (utf8 "NAK")) [textPacket (utf8 "NAK")] [] () := writes_text (by decide) (by decide)
  have hshallow : Writes (output.shallow.forM fun oid => textToWrite (utf8 "shallow " ++ oid.toHex))
      (output.shallow.map fun oid => textPacket (utf8 "shallow " ++ oid.toHex)) [] () :=
    .forM fun oid _ => writes_oidLine (by decide) (by decide) oid
  refine ⟨bands, hbands, .cast ((Writes.of_ok hhas).bind ((writes_callBuildPack hfilter hbuild).bind
    (hshallow.bind (hnak.bind hsend)))) ?_ rfl⟩
  simp

/-- **When a v1 response decodes**: for a request without `deepen`, if there is no shallow commit to
report. -/
theorem performFetchV1_decodable_iff (hhas : backend.hasObjects args.haves = .ok known)
    (hfilter : parseFilterArg args.filter = .ok filter)
    (hbuild : backend.buildPack args.want (knownHaves args.haves known) ⟨args.deepen, filter,
      args.thinPack⟩ = .ok output) (hsendable : Sendable output) :
    ∃ log, (performFetchV1 backend args).exec = (.ok (), log) ∧
      (decodeV1 args.deepen.isSome log.packets = some (output.shallow, output.chunks.flatten) ↔
        args.deepen = none ∧ output.shallow = []) := by
  obtain ⟨bands, hbands, hwrites⟩ := writes_performFetchV1 hhas hfilter hbuild hsendable
  refine ⟨_, hwrites.exec, ?_⟩
  cases hdeepen : args.deepen with
  | some n =>
    -- the client reads `NAK` where it expects the flush packet
    have hrefused : decodeV1 true (output.shallow.map (fun oid => textPacket (utf8 "shallow " ++ oid.toHex)) ++
        textPacket (utf8 "NAK") :: (bands ++ [.flush])) = none := by
      rw [decodeV1, if_pos rfl, takeOids_shallow]
      rfl
    simp [hrefused]
  | none =>
    cases hshallow : output.shallow with
    | nil => simp [decodeV1, decodeNak, hbands.decode]
    | cons oid oids =>
      have hne : utf8 "shallow " ++ oid.toHex ≠ utf8 "NAK" := by
        intro heq
        have hhead : some (115 : UInt8) = some 78 := congrArg List.head? heq
        exact absurd hhead (by decide)
      simp [decodeV1, decodeNak, takeLine_ne hne]

theorem performFetchV1_decodable_clone : ∃ log,
    (performFetchV1 (smallBackend (smallPack [] [[49]])) { want := [.fill 1] }).exec = (.ok (), log) ∧
    decodeV1 false log.packets = some ([], [80, 75]) := by
  obtain ⟨log, hexec, hiff⟩ := @performFetchV1_decodable_iff (smallBackend (smallPack [] [[49]])) { want := [.fill 1] }
    [true, false] none _ rfl rfl rfl (sendable_smallPack (by decide))
  exact ⟨log, hexec, hiff.mpr ⟨rfl, rfl⟩⟩

/-- **A shallow clone over v1 is not decodable**, with a shallow commit and without one. -/
theorem shallow_v1_undecodable :
    smallArgs.deepen = some 1 ∧
    (performFetchV1 (smallBackend (smallPack [.fill 1] [])) smallArgs).exec.1 = .ok () ∧
    decodeV1 true (performFetchV1 (smallBackend (smallPack [.fill 1] [])) smallArgs).exec.2.packets = none ∧
    (performFetchV1 (smallBackend (smallPack [] [])) smallArgs).exec.1 = .ok () ∧
    decodeV1 true (performFetchV1 (smallBackend (smallPack [] [])) smallArgs).exec.2.packets = none := by
  refine ⟨rfl, rfl, ?_, rfl, ?_⟩
  · decide +kernel
  · decide +kernel

end Mizzle.Fetch
