import Mizzle.Fetch.Streaming

/-!
# A streamed response

Beside what a run of the call and the thread cannot do, this says that it gets somewhere. Every
event lowers a weight (`weight_lt`), and as long as the call has not returned something can happen
(`returned_of_stuck`), so there is no deadlock and no endless run. If the thread succeeds, the
messages can be written and the connection holds, then every run ends with the whole pack and the
flush packet (`response_complete`). Messages that have been sent when the thread ends are written as
well (`all_reported`).

What has been written by then is what `sendPack` writes, where the reader and the receiver were
given by what they return (`sendPack_of_flushed`). So what is known about clients of such responses
holds here.
-/

namespace Mizzle.Fetch.Streaming

open Lib

variable {gen : Generator} {progress : Bool} {s s' : State} {e : Event}

/-! ### Every run ends -/

/-- What is left to do at a place, when the data is written and there is no more. -/
def Pc.weight : Pc → Nat
  | .collect last messages => messages.length + if last then 4 else 8
  | .writeMessages last messages => messages.length + if last then 3 else 7
  | .read => 6
  | .join => 5
  | .writeData _ => 9
  | .returned (.ok _) => 1
  | .returned (.error _) => 0
  | .flushed => 0

/-- A chunk and a message weigh less the further they are, and a byte that is read pays for the way
back to the next read. -/
def weight (s : State) : Nat :=
  4 * (s.current.length + s.chunkQueue.flatten.length + s.chunksLeft.flatten.length) + s.chunkQueue.length +
    2 * s.chunksLeft.length + 2 * s.messageQueue.length + 3 * s.messagesLeft.length +
      (!s.closed).toNat + (!s.ended).toNat +
    s.pc.weight

theorem weight_drainPc (progress last : Bool) :
    (drainPc progress last).weight ≤ if last then 4 else 8 := by
  cases progress <;> cases last <;> decide

variable {packets : List PacketLine} {pc : Pc}

theorem weight_of_payload {payload : Bytes} (h : pc.payload = some payload) : 0 < pc.weight := by
  cases pc with
  | writeMessages last messages =>
    rw [Pc.weight]
    cases last <;> simp
  | writeData data => exact Nat.succ_pos _
  | _ => cases h

theorem weight_lt_of_pc {handle : Bool} (h : pc.weight < s.pc.weight) :
    weight { s with pc, packets, handle } < weight s := Nat.add_lt_add_left h _

/-- **Every event lowers the weight.** -/
theorem weight_lt (ht : Transition gen progress s e s') : weight s' < weight s := by
  cases ht with
  | sendChunk hleft hopen hroom =>
    simp only [weight, hleft, List.flatten_append, List.flatten_cons, List.flatten_nil,
      List.length_append, List.length_cons,
      List.length_nil]
    omega
  | sendMessage hleft =>
    simp only [weight, hleft, List.length_append, List.length_cons, List.length_nil]
    omega
  | close hopen hleft =>
    simp only [weight, hopen, Bool.not_true, Bool.not_false, Bool.toNat_true, Bool.toNat_false]
    omega
  | finish hclosed hended =>
    simp only [weight, hended, Bool.not_true, Bool.not_false, Bool.toNat_true, Bool.toNat_false]
    omega
  | collect hpc hqueue =>
    simp only [weight, hpc, hqueue, Pc.weight, List.length_append, List.length_cons, List.length_nil]
    omega
  | @collected last messages hpc hqueue =>
    refine weight_lt_of_pc ?_
    rw [hpc]
    cases last <;> exact Nat.lt_succ_self _
  | writeMessage hpc hne hfits =>
    refine weight_lt_of_pc ?_
    rw [hpc, Pc.weight, Pc.weight, List.length_cons]
    omega
  | drained hpc => exact weight_lt_of_pc (by rw [hpc]; decide)
  | finished hpc => exact weight_lt_of_pc (by rw [hpc]; decide)
  | readCurrent hpc hcurrent =>
    have hpos : 0 < s.current.length := List.length_pos_of_ne_nil hcurrent
    simp only [weight, hpc, Pc.weight, List.length_drop, maxSideband]
    omega
  | recv hpc hcurrent hqueue =>
    simp only [weight, hcurrent, hqueue, List.flatten_cons, List.length_append, List.length_cons, List.length_nil]
    omega
  | take hpc hcurrent hqueue hclosed hhandle => exact weight_lt_of_pc (by rw [hpc]; decide)
  | taken hpc hcurrent hqueue hclosed hhandle =>
    refine weight_lt_of_pc ((weight_drainPc progress true).trans_lt ?_)
    rw [hpc]
    decide
  | joined hpc hended hresult =>
    refine weight_lt_of_pc ((weight_drainPc progress true).trans_lt ?_)
    rw [hpc]
    decide
  | joinFailed hpc hended hresult => exact weight_lt_of_pc (by rw [hpc]; exact Nat.succ_pos _)
  | writeData hpc hne hfits =>
    refine weight_lt_of_pc ((weight_drainPc progress false).trans_lt ?_)
    rw [hpc]
    exact Nat.lt_succ_self _
  | refused hpc hrefused => exact weight_lt_of_pc (weight_of_payload hpc)
  | ioError hpc => exact weight_lt_of_pc (weight_of_payload hpc)
  | flush hpc => exact weight_lt_of_pc (by rw [hpc]; decide)

/-- An event other than a failure of the connection. -/
def Event.isIo : Event → Bool
  | .ioError _ => true
  | _ => false

/-- Nothing can happen, unless the connection fails. -/
def Stuck (gen : Generator) (progress : Bool) (s : State) : Prop :=
  ∀ e : Event, e.isIo = false → step gen progress s e = none

theorem of_readStep_none (h : readStep progress s = none) :
    s.chunkQueue = [] ∧ s.closed = false := by
  rw [readStep] at h
  split at h
  case isFalse => cases h
  case isTrue =>
    split at h
    case h_1 => cases h
    case h_2 hqueue =>
      split at h
      case isFalse hopen => exact ⟨hqueue, Bool.not_eq_true _ ▸ hopen⟩
      case isTrue => split at h <;> cases h

/-- **There is no deadlock**: the thread can go on as long as it is waited for. -/
theorem returned_of_stuck (hinv : Inv gen s) (h : Stuck gen progress s) :
    s.pc = .flushed ∨ ∃ e, s.pc = .returned (.error e) := by
  have hcall : callStep gen.result progress s = none := h .call rfl
  have hchunk := h .sendChunk rfl
  have hclose := h .close rfl
  have hfinish := h .finish rfl
  cases hpc : s.pc with
  | collect last messages =>
    simp only [callStep, hpc] at hcall
    split at hcall <;> cases hcall
  | writeMessages last messages =>
    cases messages with
    | nil => simp only [callStep, hpc, reduceCtorEq] at hcall
    | cons m messages => simp only [callStep, hpc, reduceCtorEq] at hcall
  | read =>
    -- the channel is empty and open, so the thread can send or close it
    simp only [callStep, hpc] at hcall
    obtain ⟨hqueue, hopen⟩ := of_readStep_none hcall
    cases hleft : s.chunksLeft with
    | nil => simp [step, hopen, hleft] at hclose
    | cons chunk rest => simp [step, hopen, hleft, hqueue, chunkCapacity] at hchunk
  | join =>
    simp only [callStep, hpc, ite_eq_right_iff, reduceCtorEq, imp_false] at hcall
    obtain ⟨hclosed, -⟩ := hinv.control.pcInv hpc
    simp [step, hclosed, hcall] at hfinish
  | writeData data => simp only [callStep, hpc, reduceCtorEq] at hcall
  | returned result =>
    cases result with
    | error e => exact Or.inr ⟨e, rfl⟩
    | ok => simp only [callStep, hpc, reduceCtorEq] at hcall
  | flushed => exact Or.inl rfl

/-! ### Without a receiver -/

/-- Nothing on the progress channel. -/
structure Quiet (s : State) : Prop where
  messages : s.pc.messages = []
  collecting : ∀ last messages, s.pc ≠ .collect last messages
  silent : payloads channelProgress s.packets = []

theorem Quiet.next (h : Quiet s) (ht : Transition gen false s e s') : Quiet s' := by
  cases ht with
  | collect hpc hqueue => exact absurd hpc (h.collecting _ _)
  | collected hpc hqueue => exact absurd hpc (h.collecting _ _)
  | writeMessage hpc hne hfits =>
    have hmessages := h.messages
    rw [hpc] at hmessages
    cases hmessages
  | sendChunk => exact ⟨h.messages, h.collecting, h.silent⟩
  | sendMessage => exact ⟨h.messages, h.collecting, h.silent⟩
  | close => exact ⟨h.messages, h.collecting, h.silent⟩
  | finish => exact ⟨h.messages, h.collecting, h.silent⟩
  | recv => exact ⟨h.messages, h.collecting, h.silent⟩
  | writeData hpc hne hfits => exact ⟨rfl, fun _ _ => Pc.noConfusion, by
    rw [payloads_concat_other rfl]; exact h.silent⟩
  | flush hpc => exact ⟨rfl, fun _ _ => Pc.noConfusion, by rw [payloads_concat_other rfl]; exact h.silent⟩
  | _ => exact ⟨rfl, fun _ _ => Pc.noConfusion, h.silent⟩

theorem quiet_of_runs {ok : State → Event → Prop}
    (h : Runs (step gen false) ok (start gen false) s) : Quiet s :=
  h.invariant Quiet (fun hquiet _ hstep => hquiet.next (transition_of_step hstep)) ⟨rfl,
    fun _ _ => Pc.noConfusion, rfl⟩

/-! ### The packets, round by round -/

/-- Before the flush packet there are bands only. -/
def Ending (s : State) : Prop :=
  s.pc = .flushed → ∃ front, s.packets = front ++ [.flush] ∧ ∀ packet ∈ front, IsBand packet

theorem drainPc_ne_flushed (progress last : Bool) : drainPc progress last ≠ .flushed := by
  cases progress <;> exact Pc.noConfusion

theorem Ending.next (h : Ending s) (hinv : Inv gen s) (ht : Transition gen progress s e s') :
    Ending s' := by
  cases ht with
  | sendChunk => exact h
  | sendMessage => exact h
  | close => exact h
  | finish => exact h
  | recv => exact h
  | flush hpc =>
    refine fun _ => ⟨s.packets, rfl, fun packet hmem => (hinv.banded packet hmem).resolve_right fun hflush => ?_⟩
    exact hinv.control.notMem hpc Pc.noConfusion (hflush ▸ hmem)
  | taken => exact fun hpc => absurd hpc (drainPc_ne_flushed progress true)
  | joined => exact fun hpc => absurd hpc (drainPc_ne_flushed progress true)
  | writeData => exact fun hpc => absurd hpc (drainPc_ne_flushed progress false)
  | _ => exact fun hpc => Pc.noConfusion hpc

theorem ending_of_runs {ok : State → Event → Prop}
    (h : Runs (step gen progress) ok (start gen progress) s) : Ending s := by
  refine (h.invariant (fun s => Inv gen s ∧ Ending s) (fun hinv _ hstep => ?_) ⟨.start gen progress, fun hpc => ?_⟩).2
  · have ht := transition_of_step hstep
    exact ⟨hinv.1.next ht, hinv.2.next hinv.1 ht⟩
  · exact absurd hpc (drainPc_ne_flushed progress false)

/-- The messages of a drain, and the data that is read after it. -/
def roundPackets (round : List Bytes × Bytes) : List PacketLine :=
  round.1.map (bandPacket channelProgress) ++ [bandPacket channelData round.2]

theorem exists_rounds (h : ∀ packet ∈ packets, IsBand packet) :
    ∃ (rounds : List (List Bytes × Bytes)) (messages : List Bytes),
      packets = rounds.flatMap roundPackets ++ messages.map (bandPacket channelProgress) ∧
      rounds.map Prod.snd = payloads channelData packets ∧
      rounds.flatMap Prod.fst ++ messages = payloads channelProgress packets := by
  induction packets with
  | nil => exact ⟨[], [], rfl, rfl, rfl⟩
  | cons packet packets ih =>
    obtain ⟨hpacket, hpackets⟩ := List.forall_mem_cons.mp h
    obtain ⟨rounds, messages, hrounds, hdata, hprogress⟩ := ih hpackets
    rcases hpacket with ⟨m, rfl, -⟩ | ⟨data, rfl, -⟩
    · have hother : payloads channelData (bandPacket channelProgress m :: packets) =
        payloads channelData packets := rfl
      have hband : payloads channelProgress (bandPacket channelProgress m :: packets) =
        m :: payloads channelProgress packets := rfl
      rw [hother, hband, ← hprogress, ← hdata]
      -- the message belongs to the drain of the first round, if there is one
      cases rounds with
      | nil => exact ⟨[], m :: messages, by rw [hrounds]; rfl, rfl, rfl⟩
      | cons round rounds => exact ⟨(m :: round.1, round.2) :: rounds, messages, by rw [hrounds]; rfl, rfl, rfl⟩
    · refine ⟨([], data) :: rounds, messages, ?_, ?_, hprogress⟩
      · rw [hrounds]
        rfl
      · rw [List.map_cons, hdata]
        rfl

/-- The messages that a drain finds. -/
def pending (rounds : List (List Bytes × Bytes)) (messages : List Bytes) (round : Nat) :
    List Bytes :=
  (rounds.map Prod.fst ++ [messages]).getD round []

theorem pending_mem {rounds : List (List Bytes × Bytes)} {messages : List Bytes} {round : Nat}
    {m : Bytes} (h : m ∈ pending rounds messages round) :
    m ∈ rounds.flatMap Prod.fst ++ messages := by
  rw [pending, List.getD_eq_getElem?_getD] at h
  cases hget : (rounds.map Prod.fst ++ [messages])[round]? with
  | none => simp [hget] at h
  | some drained =>
    rw [hget, Option.getD_some] at h
    have hmem := List.mem_of_getElem? hget
    rcases List.mem_append.mp hmem with hmem | hmem
    · obtain ⟨r, hr, rfl⟩ := List.mem_map.mp hmem
      exact List.mem_append_left _ (List.mem_flatMap.mpr ⟨r, hr, h⟩)
    · exact List.mem_append_right _ (List.mem_singleton.mp hmem ▸ h)

section

variable {receiver : Option (Nat → List Bytes)} {rounds : List (List Bytes × Bytes)} {messages : List Bytes}
  (hdrain : ∀ round, Writes (drain receiver round)
    ((pending rounds messages round).map (bandPacket channelProgress)) [] ())
  (hdata : ∀ round ∈ rounds, round.2 ≠ [] ∧ round.2.length ≤ maxSideband)

include hdrain hdata

theorem writes_rounds {front rest : List (List Bytes × Bytes)} (hrounds : rounds = front ++ rest) :
    Writes (streamChunks receiver none front.length (rest.map Prod.snd))
      (rest.flatMap roundPackets ++ messages.map (bandPacket channelProgress)) [] (rounds.length + 1) := by
  induction rest generalizing front with
  | nil =>
    have hlength : rounds.length = front.length := by rw [hrounds, List.append_nil]
    have hpending : pending rounds messages front.length = messages := by simp [pending, hrounds]
    have hlast := hdrain front.length
    rw [hpending] at hlast
    rw [hlength]
    exact .cast (hlast.bind (.pure _)) (List.append_nil _) rfl
  | cons round rest ih =>
    have hpending : pending rounds messages front.length = round.1 := by simp [pending, hrounds]
    have hfirst := hdrain front.length
    rw [hpending] at hfirst
    obtain ⟨hne, hfits⟩ := hdata round (by simp [hrounds])
    have hband : Writes (bandToWrite channelData round.2) [bandPacket channelData round.2] [] () :=
      writes_band hne (hfits.trans_lt (by decide))
    have hrest := @ih (front ++ [round]) (by simp [hrounds])
    rw [List.length_append, List.length_singleton] at hrest
    exact .cast (hfirst.bind (hband.bind hrest)) (by simp [roundPackets]) rfl

theorem writes_streamPackSideband {output : PackOutput}
    (hchunks : output.chunks = rounds.map Prod.snd) (hfailure : output.failure = none) :
    Writes (streamPackSideband output receiver)
      (rounds.flatMap roundPackets ++ messages.map (bandPacket channelProgress)) [] () := by
  have hloop := @writes_rounds receiver rounds messages hdrain hdata [] rounds rfl
  have hbeyond : pending rounds messages (rounds.length + 1) = [] := by simp [pending]
  have hlast := hdrain (rounds.length + 1)
  rw [hbeyond] at hlast
  rw [streamPackSideband, hchunks, hfailure]
  exact .cast (hloop.bind hlast) (List.append_nil _) rfl

end

theorem sendable_of_mem (h : ∀ packet ∈ packets, IsBand packet) {m : Bytes}
    (hm : m ∈ payloads channelProgress packets) : m ≠ [] ∧ m.length < Proto.maxDataLen := by
  obtain ⟨packet, hpacket, hpayload⟩ := List.mem_filterMap.mp hm
  rcases h packet hpacket with ⟨m', rfl, hm'⟩ | ⟨data, rfl, -⟩
  · exact Option.some.inj hpayload ▸ hm'
  · cases hpayload

/-- **What has been written is what `sendPack` writes**, for a reader that returns the pack in some
pieces and a receiver that has some messages each time it is drained. -/
theorem sendPack_of_flushed {ok : State → Event → Prop}
    (h : Runs (step gen progress) ok (start gen progress) s) (hpc : s.pc = .flushed) :
    ∃ output : PackOutput, output.failure = none ∧ output.chunks.flatten = gen.chunks.flatten ∧
      ∀ args : FetchArgs, args.noProgress = !progress → Writes (sendPack args output) s.packets [] () := by
  have hinv := inv_of_runs h
  obtain ⟨front, hpackets, hfront⟩ := ending_of_runs h hpc
  obtain ⟨rounds, messages, hrounds, hdata, hprogress⟩ := exists_rounds hfront
  have hall : ∀ channel, payloads channel s.packets = payloads channel front := fun channel => by
    rw [hpackets, payloads_concat_other rfl]
  have hsized : ∀ round ∈ rounds, round.2 ≠ [] ∧ round.2.length ≤ maxSideband := by
    intro round hround
    refine hinv.banded.sized ?_
    rw [hall, ← hdata]
    exact List.mem_map_of_mem hround
  have hmem : ∀ {round : Nat} {m : Bytes}, m ∈ pending rounds messages round → m ∈ payloads channelProgress front :=
    fun hm => hprogress ▸ pending_mem hm
  obtain ⟨output, hchunks, hfailure, hreceiver⟩ : ∃ output : PackOutput, output.chunks = rounds.map Prod.snd ∧
      output.failure = none ∧ output.progress = some (pending rounds messages) :=
    ⟨{ chunks := rounds.map Prod.snd, progress := some (pending rounds messages),
       chunk_size := List.forall_mem_map.mpr hsized }, rfl, rfl, rfl⟩
  refine ⟨output, hfailure, ?_, fun args hargs => ?_⟩
  · rw [hchunks, hdata, ← hall]
    exact hinv.complete (Or.inr hpc)
  · have hdrain : ∀ round, Writes (drain (if args.noProgress then none else output.progress) round)
        ((pending rounds messages round).map (bandPacket channelProgress)) [] () := by
      intro round
      rw [hargs, hreceiver]
      cases progress with
      | true => exact .forM fun m hm => writes_band (sendable_of_mem hfront
        (hmem hm)).1 (sendable_of_mem hfront (hmem hm)).2
      | false =>
        -- without a receiver there have been no messages
        have hnone : pending rounds messages round = [] := List.eq_nil_iff_forall_not_mem.mpr fun m hm => by
          have hm := hmem hm
          rw [← hall, (quiet_of_runs h).silent] at hm
          exact List.not_mem_nil hm
        rw [hnone]
        exact .pure ()
    rw [hpackets, hrounds]
    exact (writes_streamPackSideband hdrain hsized hchunks hfailure).bind (.packet .flush)

theorem sendPack_sampleEnd :
    ∃ output : PackOutput, output.failure = none ∧ output.chunks.flatten = [80, 65, 67] ∧
    ∀ args : FetchArgs, args.noProgress = false → Writes (sendPack args output) sampleEnd.packets [] () :=
  sendPack_of_flushed (@Runs.of_runList _ _ (step sampleGenerator true)
    (fun _ _ => True) _ (start sampleGenerator true) _
    sampleSchedule (by decide +kernel)) rfl

/-! ### All messages -/

/-- Behind the loop there are no more messages to come, and after the last drain none are in the
channel. -/
def LastInv (s : State) : Pc → Prop
  | .collect true _ => s.messagesLeft = []
  | .writeMessages true _ | .returned (.ok _) | .flushed => s.messagesLeft = [] ∧ s.messageQueue = []
  | _ => True

structure Reported (s : State) : Prop where
  ended : s.ended = true → s.messagesLeft = []
  atPc : LastInv s s.pc

theorem LastInv.of_left (h : LastInv s pc) (hleft : s.messagesLeft ≠ []) (s' : State) :
    LastInv s' pc := by
  cases pc with
  | collect last messages =>
    cases last with
    | false => trivial
    | true => exact absurd h hleft
  | writeMessages last messages =>
    cases last with
    | false => trivial
    | true => exact absurd h.1 hleft
  | returned result =>
    cases result with
    | error e => trivial
    | ok => exact absurd h.1 hleft
  | flushed => exact absurd h.1 hleft
  | _ => trivial

theorem Reported.next (h : Reported s) (hinv : Inv gen s)
    (hfinish : e = .finish → s.messagesLeft = []) (ht : Transition gen true s e s') :
    Reported s' := by
  have hat : ∀ {pc : Pc}, s.pc = pc → LastInv s pc := fun hpc => hpc ▸ h.atPc
  cases ht with
  | sendMessage hleft =>
    have hne : s.messagesLeft ≠ [] := by simp [hleft]
    exact ⟨fun hended => absurd (h.ended hended) hne, h.atPc.of_left hne _⟩
  | finish => exact ⟨fun _ => hfinish rfl, h.atPc⟩
  | @collect last messages rest m hpc hqueue =>
    refine ⟨h.ended, ?_⟩
    cases last with
    | false => trivial
    | true => exact hat hpc
  | @collected last messages hpc hqueue =>
    refine ⟨h.ended, ?_⟩
    cases last with
    | false => trivial
    | true => exact ⟨hat hpc, hqueue⟩
  | @writeMessage last m messages hpc hne hfits =>
    refine ⟨h.ended, ?_⟩
    cases last with
    | false => trivial
    | true => exact hat hpc
  | finished hpc => exact ⟨h.ended, hat hpc⟩
  | taken hpc hcurrent hqueue hclosed hhandle =>
    exact absurd ((hinv.control.pcInv hpc).symm.trans hhandle) Bool.noConfusion
  | joined hpc hended hresult => exact ⟨h.ended, h.ended hended⟩
  | flush hpc => exact ⟨h.ended, hat hpc⟩
  | sendChunk => exact ⟨h.ended, h.atPc⟩
  | close => exact ⟨h.ended, h.atPc⟩
  | recv => exact ⟨h.ended, h.atPc⟩
  | _ => exact ⟨h.ended, trivial⟩

/-- **All messages are reported** by a call that succeeds, if they have been sent when the thread
ends. -/
theorem all_reported
    (h : Runs (step gen true) (fun s e => e = .finish → s.messagesLeft = []) (start gen true) s)
    (hok : s.pc.returnedOk) : payloads channelProgress s.packets = gen.messages := by
  obtain ⟨hinv, hreported⟩ := h.invariant (fun s => Inv gen s ∧ Reported s)
    (fun hinv hfinish hstep => ⟨hinv.1.next (transition_of_step hstep),
      hinv.2.next hinv.1 hfinish (transition_of_step hstep)⟩)
    ⟨.start gen true, fun hended => Bool.noConfusion hended, trivial⟩
  have hlast : s.messagesLeft = [] ∧ s.messageQueue = [] := by
    have hat := hreported.atPc
    rcases hok with hpc | hpc
    · rw [hpc] at hat
      exact hat
    · rw [hpc] at hat
      exact hat
  obtain ⟨hfailed, -, hnone⟩ := hok.idle
  have hmessages := (hinv.conserved.balanced hfailed).messages
  simpa [hnone, hlast.1, hlast.2] using hmessages

theorem all_reported_sampleEnd : payloads channelProgress sampleEnd.packets = [[49], [50]] :=
  all_reported (@Runs.of_runList _ _ (step sampleGenerator true) (fun s e => e = .finish → s.messagesLeft = []) _
    (start sampleGenerator true) _ sampleSchedule (by decide +kernel)) (Or.inr rfl)

/-! ### A response that succeeds -/

theorem bands_of_isBand (h : ∀ packet ∈ packets, IsBand packet) :
    Bands packets (payloads channelData packets).flatten := by
  induction packets with
  | nil => exact .nil
  | cons packet packets ih =>
    obtain ⟨hpacket, hpackets⟩ := List.forall_mem_cons.mp h
    rcases hpacket with ⟨m, rfl, -⟩ | ⟨data, rfl, -⟩
    · exact .progress m (ih hpackets)
    · exact .data data (ih hpackets)

/-- The thread succeeds, and the messages can be written if they are asked for. -/
structure Generator.Sends (gen : Generator) (progress : Bool) : Prop where
  result : gen.result = .ok
  message : progress = true → ∀ m ∈ gen.messages, m ≠ [] ∧ m.length < Proto.maxDataLen

theorem sendable_of_payload (hsends : gen.Sends progress) (hinv : Inv gen s)
    (hquiet : progress = false → Quiet s) {payload : Bytes}
    (hpayload : s.pc.payload = some payload) :
    payload ≠ [] ∧ payload.length < Proto.maxDataLen := by
  cases hpc : s.pc with
  | writeMessages last messages =>
    rw [hpc] at hpayload
    cases messages with
    | nil => cases hpayload
    | cons m messages =>
      obtain rfl := Option.some.inj hpayload
      cases progress with
      | true =>
        have hbalanced := (hinv.conserved.balanced (by rw [hpc]; rfl)).messages
        refine hsends.message rfl m ?_
        rw [← hbalanced, hpc]
        simp [Pc.messages]
      | false =>
        have hmessages := (hquiet rfl).messages
        rw [hpc] at hmessages
        cases hmessages
  | writeData data =>
    rw [hpc] at hpayload
    obtain rfl := Option.some.inj hpayload
    obtain ⟨-, hne, hlength⟩ := hinv.control.pcInv hpc
    exact ⟨hne, hlength.trans_lt (by decide)⟩
  | _ =>
    rw [hpc] at hpayload
    cases hpayload

@[simp] theorem failed_drainPc (progress last : Bool) : (drainPc progress last).failed = false := by
  cases progress <;> rfl

theorem not_failed_next (hsends : gen.Sends progress) (hinv : Inv gen s)
    (hquiet : progress = false → Quiet s) (hok : s.pc.failed = false) (hevent : e.isIo = false)
    (ht : Transition gen progress s e s') : s'.pc.failed = false := by
  cases ht with
  | sendChunk => exact hok
  | sendMessage => exact hok
  | close => exact hok
  | finish => exact hok
  | recv => exact hok
  | taken => exact failed_drainPc progress true
  | joined => exact failed_drainPc progress true
  | joinFailed hpc hended hresult => exact absurd hsends.result hresult
  | writeData => exact failed_drainPc progress false
  | refused hpc hrefused =>
    obtain ⟨hne, hfits⟩ := sendable_of_payload hsends hinv hquiet hpc
    rcases hrefused with hempty | hlong
    · exact absurd hempty hne
    · omega
  | ioError => cases hevent
  | _ => rfl

theorem not_failed (hsends : gen.Sends progress)
    (h : Runs (step gen progress) (fun _ e => e.isIo = false) (start gen progress) s) :
    s.pc.failed = false := by
  refine (h.invariant (fun s => Inv gen s ∧ (progress = false → Quiet s) ∧ s.pc.failed = false)
    (fun hinv hevent hstep => ?_) ⟨.start gen progress, fun hprogress => ?_, failed_drainPc progress false⟩).2.2
  · obtain ⟨hinv, hquiet, hok⟩ := hinv
    have ht := transition_of_step hstep
    refine ⟨hinv.next ht, fun hprogress => ?_, not_failed_next hsends hinv hquiet hok hevent ht⟩
    subst hprogress
    exact (hquiet rfl).next ht
  · subst hprogress
    exact ⟨rfl, fun _ _ => Pc.noConfusion, rfl⟩

/-- **A response ends, and with the whole pack.** No run goes on for ever, and where nothing more
can happen the call has returned, whatever becomes of the thread and of the connection. If the
thread succeeds, the messages can be written and the connection holds, the client then has the
pack. -/
theorem response_complete :
    (∀ (es : List Event) (s : State),
      runList (step gen progress) (fun _ _ => True) (start gen progress) es = some s →
        es.length ≤ weight (start gen progress)) ∧
    (∀ s, Runs (step gen progress) (fun _ _ => True) (start gen progress) s → Stuck gen progress s →
      s.pc = .flushed ∨ ∃ e, s.pc = .returned (.error e)) ∧
    (gen.Sends progress → ∀ s,
      Runs (step gen progress) (fun _ e => e.isIo = false) (start gen progress) s →
        Stuck gen progress s → decodeBands s.packets = some gen.chunks.flatten) := by
  refine ⟨fun es s hrun => ?_, fun s hrun hstuck => returned_of_stuck (inv_of_runs hrun) hstuck,
    fun hsends s hrun hstuck => ?_⟩
  · have hcost : ∀ {s s' : State} {e : Event}, True → step gen progress s e = some s' →
        weight s' < weight s := fun _ hstep => weight_lt (transition_of_step hstep)
    have hlength := length_le_of_runList hcost hrun
    omega
  · have hinv := inv_of_runs hrun
    rcases returned_of_stuck hinv hstuck with hpc | ⟨e, hpc⟩
    · obtain ⟨front, hpackets, hfront⟩ := ending_of_runs hrun hpc
      have hcomplete := hinv.complete (Or.inr hpc)
      rw [hpackets, payloads_concat_other rfl] at hcomplete
      rw [hpackets, (bands_of_isBand hfront).decode, hcomplete]
    · have hok := not_failed hsends hrun
      rw [hpc] at hok
      cases hok

theorem response_complete_sampleEnd :
    Runs (step sampleGenerator true)
      (fun _ e => e.isIo = false) (start sampleGenerator true) sampleEnd ∧
      Stuck sampleGenerator true sampleEnd ∧ decodeBands sampleEnd.packets = some [80, 65, 67] := by
  have hrun := @Runs.of_runList _ _ (step sampleGenerator true)
    (fun _ e => e.isIo = false) _ (start sampleGenerator true)
    sampleEnd sampleSchedule (by decide +kernel)
  have hstuck : Stuck sampleGenerator true sampleEnd := by
    intro e _
    cases e <;> rfl
  exact ⟨hrun, hstuck, response_complete.2.2 ⟨rfl, fun _ => by decide⟩ sampleEnd hrun hstuck⟩

end Mizzle.Fetch.Streaming
