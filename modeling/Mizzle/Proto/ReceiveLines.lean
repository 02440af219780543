import Mizzle.Proto.PktLine
import Mizzle.Proto.Receive

/-!
# The framing of a receive-pack request

A client sends its commands as pkt-lines, the first one with its capabilities behind a NUL, then a
flush packet and the pack. The parser reads such a request back, whatever the refnames, and leaves
exactly the pack unread (`readReceiveRequest_encodeRequest`).

In the other direction it accepts a little more than pkt-lines. The length goes through
`usize::from_str_radix`, which takes a plus sign in front of the digits, so that a sign and three
digits pass for four digits. `framed_iff` says that this is the only deviation.
-/

namespace Mizzle.Receive

open Lib Proto

/-! ### Lengths -/

theorem hexValue_of_mem_fold {digits : Bytes} {m n : Nat}
    (h : digits.foldlM (fun n b => (hexValue b).map (16 * n + ·)) m = some n) {b : UInt8}
    (hb : b ∈ digits) : hexValue b ≠ none := by
  induction digits generalizing m with
  | nil => exact absurd hb List.not_mem_nil
  | cons a digits ih =>
    obtain ⟨value, hvalue, hrest⟩ := Option.bind_eq_some_iff.mp h
    obtain ⟨d, hd, -⟩ := Option.map_eq_some_iff.mp hvalue
    rcases List.mem_cons.mp hb with rfl | hb
    · simp [hd]
    · exact ih hrest hb

theorem hexValue_of_mem {digits : Bytes} {n : Nat} (h : hexNumber digits = some n) {b : UInt8}
    (hb : b ∈ digits) : hexValue b ≠ none :=
  hexValue_of_mem_fold h hb

theorem plus_notMem {digits : Bytes} {n : Nat} (h : hexNumber digits = some n) :
    (43 : UInt8) ∉ digits := fun hmem =>
  hexValue_of_mem h hmem (by decide)

theorem fromStrRadix16_of_hexNumber {digits : Bytes} {n : Nat} (hne : digits ≠ [])
    (h : hexNumber digits = some n) : fromStrRadix16 digits = some n := by
  rw [fromStrRadix16, h]
  · exact hne
  · rintro rest rfl
    exact plus_notMem h List.mem_cons_self

theorem hexNumber_of_fromStrRadix16 {digits : Bytes} {n : Nat}
    (h : fromStrRadix16 digits = some n) :
    (∃ rest, digits = 43 :: rest) ∨ hexNumber digits = some n := by
  unfold fromStrRadix16 at h
  split at h
  · cases h
  · rename_i rest
    exact Or.inl ⟨rest, rfl⟩
  · exact Or.inr h

theorem hexNumber_u16ToHex {n : Nat} (h : n < 65536) : hexNumber (u16ToHex n) = some n := by
  have hdigit : ∀ m, hexValue (hexDigit (m % 16)) = some (m % 16) := fun m =>
    hexValue_hexDigit (Nat.mod_lt m (by decide))
  simp only [hexNumber, u16ToHex, List.foldlM_cons, List.foldlM_nil, hdigit, Option.map_some, Option.bind_eq_bind,
    Option.bind_some, Option.pure_def, Option.some.injEq]
  omega

theorem isSome_fromUtf8_of_hexNumber {digits : Bytes} {n : Nat} (h : hexNumber digits = some n) :
    (fromUtf8 digits).isSome := by
  refine isSome_fromUtf8_of_ascii fun b hb => ?_
  by_contra hge
  exact hexValue_of_mem h hb (by simp only [hexValue]; rw [if_neg (by omega), if_neg (by omega), if_neg (by omega)])

theorem eq_zero_of_hexValue : ∀ b : UInt8, hexValue b = some 0 → b = 48 := by decide +kernel

theorem eq_replicate_of_hexNumber_zero {digits : Bytes} (h : hexNumber digits = some 0) :
    digits = List.replicate digits.length 48 := by
  have hfold : ∀ (ds : Bytes) (m : Nat), ds.foldlM (fun n b => (hexValue b).map (16 * n + ·)) m = some 0 →
      m = 0 ∧ ∀ b ∈ ds, b = 48 := by
    intro ds
    induction ds with
    | nil =>
      intro m hm
      exact ⟨Option.some.inj hm, fun b hb => absurd hb List.not_mem_nil⟩
    | cons a ds ih =>
      intro m hm
      obtain ⟨value, hvalue, hrest⟩ := Option.bind_eq_some_iff.mp hm
      obtain ⟨d, hd, rfl⟩ := Option.map_eq_some_iff.mp hvalue
      obtain ⟨hzero, hall⟩ := ih _ hrest
      obtain rfl : d = 0 := by omega
      exact ⟨by omega, List.forall_mem_cons.mpr ⟨eq_zero_of_hexValue a hd, hall⟩⟩
  exact List.eq_replicate_of_mem (hfold digits 0 h).2

/-! ### One packet under the parser -/

variable {limits : ProtocolLimits} {before : List RefUpdate} {firstLine : Bool} {header data rest : Bytes}

theorem readCommands_flush (hheader : header.length = 4) (hzero : hexNumber header = some 0) :
    readCommands limits before firstLine (header ++ rest) = .ok (before, rest) := by
  have hne : header ≠ [] := List.ne_nil_of_length_eq_add_one hheader
  rw [readCommands, List.take_left' hheader, List.drop_left' hheader, if_neg (by simp [hheader]),
    if_neg (by simp [Option.isSome_iff_ne_none.mp (isSome_fromUtf8_of_hexNumber hzero)]),
      fromStrRadix16_of_hexNumber hne hzero]
  rfl

theorem readCommands_packet (hheader : header.length = 4)
    (hlen : hexNumber header = some (data.length + 4)) {u : RefUpdate}
    (hparse : parseCommand firstLine (stripNewline data) = .ok (some u)) :
    readCommands limits before firstLine (header ++ (data ++ rest)) =
      if before.length + 1 ≤ limits.maxRefUpdates then readCommands limits (before ++ [u]) false rest
      else .error (.limitExceeded "ref updates" (before.length + 1) limits.maxRefUpdates) := by
  have hne : header ≠ [] := List.ne_nil_of_length_eq_add_one hheader
  have hdrop : (header ++ (data ++ rest)).drop (data.length + 4) = rest := by
    rw [← List.append_assoc]
    exact List.drop_left' (by rw [List.length_append]; omega)
  rw [readCommands, List.take_left' hheader, List.drop_left' hheader, if_neg (by simp [hheader]),
    if_neg (by simp [Option.isSome_iff_ne_none.mp (isSome_fromUtf8_of_hexNumber hlen)]),
      fromStrRadix16_of_hexNumber hne hlen]
  simp only [hdrop]
  rw [if_neg (by omega), if_neg (by omega), if_neg (by simp only [List.length_append]; omega), Nat.add_sub_cancel,
    List.take_left, hparse]
  by_cases hroom : before.length + 1 ≤ limits.maxRefUpdates
  · simp only [checkLimit, if_pos hroom]
  · simp only [checkLimit, if_neg hroom]

/-! ### Reading commands back -/

/-- A command without its capabilities and its newline. -/
def command (u : RefUpdate) : Bytes :=
  u.oldOid.toHex ++ 32 :: (u.newOid.toHex ++ 32 :: utf8 u.refname)

/-- The lines of a request; the first one has the capabilities. -/
def commandLines (caps : Bytes) : List RefUpdate → List Bytes
  | [] => []
  | u :: updates => (command u ++ 0 :: caps) :: updates.map command

/-- The request up to its pack. -/
def encodeRequest (caps : Bytes) (updates : List RefUpdate) : Bytes :=
  (commandLines caps updates).flatMap (fun text => (Packet.line text).encode) ++ Packet.flush.encode

theorem parseCommand_command (u : RefUpdate) (firstLine : Bool) {data : Bytes}
    (hdata : (if firstLine then (cut 0 data).1 else data) = command u) :
    parseCommand firstLine data = .ok (some u) := by
  have hspace : ∀ oid : ObjectId, (32 : UInt8) ∉ oid.toHex := fun oid hmem => (ObjectId.mem_toHex hmem).2.2 rfl
  simp only [parseCommand, hdata, command]
  rw [cut_append (hspace u.oldOid)]
  simp only
  rw [cut_append (hspace u.newOid)]
  simp only [ObjectId.fromHex_toHex, fromUtf8_utf8]

theorem parseCommand_first {u : RefUpdate} (hname : (0 : UInt8) ∉ utf8 u.refname) (caps : Bytes) :
    parseCommand true (command u ++ 0 :: caps) = .ok (some u) := by
  have hnul : (0 : UInt8) ∉ command u := by
    have hhex : ∀ oid : ObjectId, (0 : UInt8) ∉ oid.toHex := fun oid hmem => (ObjectId.mem_toHex hmem).1 rfl
    simp [command, hhex, hname]
  refine parseCommand_command u true ?_
  rw [if_pos rfl, cut_append hnul]

theorem readCommands_line {text : Bytes} {u : RefUpdate} (hfits : text.length + 5 < 65536)
    (hparse : parseCommand firstLine text = .ok (some u)) (rest : Bytes) :
    readCommands limits before firstLine ((Packet.line text).encode ++ rest) =
      if before.length + 1 ≤ limits.maxRefUpdates then readCommands limits (before ++ [u]) false rest
      else .error (.limitExceeded "ref updates" (before.length + 1) limits.maxRefUpdates) := by
  have hlen : hexNumber (u16ToHex (text.length + 5)) = some ((text ++ [10]).length + 4) := by
    rw [hexNumber_u16ToHex hfits, List.length_append, List.length_singleton]
  rw [Packet.encode, List.append_assoc, List.append_assoc, ← List.append_assoc text]
  exact readCommands_packet rfl hlen (by rw [stripNewline_append, hparse])

theorem readCommands_lines (updates : List RefUpdate)
    (hfits : ∀ u ∈ updates, (command u).length + 5 < 65536)
    (hbefore : before.length ≤ limits.maxRefUpdates) (p : Bytes) :
    readCommands limits before false
        ((updates.map command).flatMap (fun text => (Packet.line text).encode) ++ Packet.flush.encode ++ p) =
      if before.length + updates.length ≤ limits.maxRefUpdates then .ok (before ++ updates, p)
      else .error (.limitExceeded "ref updates" (limits.maxRefUpdates + 1) limits.maxRefUpdates) := by
  induction updates generalizing before with
  | nil =>
    rw [List.map_nil, List.flatMap_nil, List.nil_append, List.append_nil, List.length_nil, Nat.add_zero, if_pos hbefore]
    exact readCommands_flush rfl (hexNumber_u16ToHex (by decide))
  | cons u updates ih =>
    obtain ⟨hu, hrest⟩ := List.forall_mem_cons.mp hfits
    rw [List.map_cons, List.flatMap_cons, List.append_assoc, List.append_assoc,
      readCommands_line hu (parseCommand_command u false rfl), ← List.append_assoc, List.length_cons]
    split
    · rename_i hroom
      have hcount : (before ++ [u]).length = before.length + 1 := by simp
      rw [ih hrest (by omega), hcount, List.append_assoc, List.singleton_append]
      simp only [show before.length + 1 + updates.length = before.length + (updates.length + 1) by omega]
    · rw [if_neg (by omega)]
      rw [show before.length = limits.maxRefUpdates by omega]

/-- **The parser inverts the encoding and stops at the pack**, or says that there are too many
commands. -/
theorem readReceiveRequest_encodeRequest (limits : ProtocolLimits) (caps : Bytes)
    (updates : List RefUpdate) (p : Bytes)
    (hfirst : ∀ u ∈ updates.head?, (0 : UInt8) ∉ utf8 u.refname)
    (hfits : ∀ text ∈ commandLines caps updates, text.length + 5 < 65536) :
    readReceiveRequest limits (encodeRequest caps updates ++ p) =
      if updates.length ≤ limits.maxRefUpdates then .ok (updates, p)
      else .error (.limitExceeded "ref updates" (limits.maxRefUpdates + 1) limits.maxRefUpdates) := by
  cases updates with
  | nil =>
    rw [List.length_nil, if_pos (Nat.zero_le _)]
    exact readCommands_flush rfl (hexNumber_u16ToHex (by decide))
  | cons u updates =>
    obtain ⟨hu, hrest⟩ := List.forall_mem_cons.mp hfits
    rw [readReceiveRequest, encodeRequest, commandLines, List.flatMap_cons, List.append_assoc, List.append_assoc,
      readCommands_line hu (parseCommand_first (hfirst u rfl) caps), ← List.append_assoc,
        List.length_nil, List.nil_append,
      List.length_cons]
    split
    · rename_i hroom
      have hone : [u].length ≤ limits.maxRefUpdates := hroom
      rw [readCommands_lines updates (fun v hv => hrest _ (List.mem_map_of_mem hv)) hone]
      simp only [List.length_singleton, List.singleton_append, Nat.add_comm 1]
    · rw [if_neg (by omega)]
      obtain hzero : limits.maxRefUpdates = 0 := by omega
      rw [hzero]

/-- Two commands, the second with a refname that holds spaces and a NUL. -/
theorem readReceiveRequest_two :
    readReceiveRequest {} (encodeRequest (utf8 "report-status") [⟨.null, .fill 1, "refs/heads/a"⟩,
      ⟨.fill 1, .null, "b \x00 c\n"⟩] ++
        utf8 "PACK") =
      .ok ([⟨.null, .fill 1, "refs/heads/a"⟩, ⟨.fill 1, .null, "b \x00 c\n"⟩], utf8 "PACK") :=
  readReceiveRequest_encodeRequest {} (utf8 "report-status") _ (utf8 "PACK") (by decide +kernel) (by decide +kernel)

/-! ### What is accepted -/

/-- A packet: four hexadecimal digits that give its length. -/
def IsPacket (packet : Bytes) : Prop :=
  ∃ header data, packet = header ++ data ∧ header.length = 4 ∧ hexNumber header = some packet.length

/-- Packets and a flush packet. -/
def Framed (consumed : Bytes) : Prop :=
  ∃ packets : List Bytes, (∀ packet ∈ packets, IsPacket packet) ∧ consumed = packets.flatten ++ utf8 "0000"

/-- After some packets there is a plus sign in place of the first digit of a length. -/
def SignedLength (body : Bytes) : Prop :=
  ∃ (packets : List Bytes) (rest : Bytes), (∀ packet ∈ packets, IsPacket packet) ∧ body = packets.flatten ++ 43 :: rest

theorem IsPacket.four_le {packet : Bytes} (h : IsPacket packet) : 4 ≤ packet.length := by
  obtain ⟨header, data, rfl, hheader, -⟩ := h
  rw [List.length_append]
  omega

theorem IsPacket.hexNumber_take {packet : Bytes} (h : IsPacket packet) (rest : Bytes) :
    hexNumber ((packet ++ rest).take 4) = some packet.length := by
  obtain ⟨header, data, rfl, hheader, hlen⟩ := h
  rw [List.append_assoc, List.take_left' hheader, hlen]

theorem signedLength_of_take {body rest : Bytes} (h : body.take 4 = 43 :: rest) :
    SignedLength body := by
  refine ⟨[], rest ++ body.drop 4, by simp, ?_⟩
  rw [List.flatten_nil, List.nil_append, ← List.cons_append, ← h, List.take_append_drop]

theorem isPacket_take {body : Bytes} {len : Nat} (hlen : hexNumber (body.take 4) = some len)
    (hfour : 4 ≤ len) (hbody : len ≤ body.length) : IsPacket (body.take len) := by
  refine ⟨body.take 4, (body.drop 4).take (len - 4), ?_, by rw [List.length_take]; omega, ?_⟩
  · rw [← List.take_add, Nat.add_sub_cancel' hfour]
  · rw [hlen, List.length_take, min_eq_left hbody]

theorem framed_or_signed_step {body p : Bytes} {len : Nat}
    (hlen : fromStrRadix16 (body.take 4) = some len) (hfour : 4 ≤ len) (hbody : len ≤ body.length)
    (hrest : (∃ consumed, body.drop len = consumed ++ p ∧ Framed consumed) ∨
      SignedLength (body.drop len)) :
    (∃ consumed, body = consumed ++ p ∧ Framed consumed) ∨ SignedLength body := by
  rcases hexNumber_of_fromStrRadix16 hlen with ⟨rest, hplus⟩ | hdigits
  · exact Or.inr (signedLength_of_take hplus)
  · have hpacket := isPacket_take hdigits hfour hbody
    rcases hrest with ⟨_, hconsumed, packets, hall, rfl⟩ | ⟨packets, rest, hall, hsplit⟩
    · refine Or.inl ⟨body.take len ++ (packets.flatten ++ utf8 "0000"), ?_, body.take len :: packets,
        List.forall_mem_cons.mpr ⟨hpacket, hall⟩, by rw [List.flatten_cons, List.append_assoc]⟩
      rw [List.append_assoc, ← hconsumed, List.take_append_drop]
    · refine Or.inr ⟨body.take len :: packets, rest, List.forall_mem_cons.mpr ⟨hpacket, hall⟩, ?_⟩
      rw [List.flatten_cons, List.append_assoc, ← hsplit, List.take_append_drop]

theorem framed_or_signed {body p : Bytes} {updates : List RefUpdate}
    (h : readCommands limits before firstLine body = .ok (updates, p)) :
    (∃ consumed, body = consumed ++ p ∧ Framed consumed) ∨ SignedLength body := by
  fun_induction readCommands limits before firstLine body with
  | case1 | case2 | case3 | case5 | case6 | case7 | case9 => simp at h
  | case4 before firstLine body hlong hutf8 hzero =>
    obtain ⟨-, rfl⟩ := Prod.mk.inj (Except.ok.inj h)
    rcases hexNumber_of_fromStrRadix16 hzero with ⟨rest, hplus⟩ | hdigits
    · exact Or.inr (signedLength_of_take hplus)
    · refine Or.inl ⟨body.take 4, (List.take_append_drop 4 body).symm, [], by simp, ?_⟩
      rw [eq_replicate_of_hexNumber_zero hdigits, List.length_take, min_eq_left (by omega)]
      rfl
  | case8 before firstLine body hlong hutf8 len hlen hne hfour hbody hparse ih =>
    exact framed_or_signed_step hlen (by omega) (by omega) (ih h)
  | case10 before firstLine body hlong hutf8 len hlen hne hfour hbody update hparse hlimit ih =>
    exact framed_or_signed_step hlen (by omega) (by omega) (ih h)

theorem not_signed_of_framed {packets : List Bytes} (hall : ∀ packet ∈ packets, IsPacket packet)
    (p : Bytes) : ¬ SignedLength (packets.flatten ++ utf8 "0000" ++ p) := by
  rintro ⟨packets', rest, hall', heq⟩
  induction packets generalizing packets' with
  | nil =>
    cases packets' with
    | nil => exact absurd (List.cons.inj heq).1 (by decide)
    | cons packet packets' =>
      have hpacket := hall' packet List.mem_cons_self
      have hnumber := hpacket.hexNumber_take (packets'.flatten ++ 43 :: rest)
      rw [← List.append_assoc, ← List.flatten_cons, ← heq] at hnumber
      have hzero : some 0 = some packet.length := hnumber
      have hfour := hpacket.four_le
      have hlength := Option.some.inj hzero
      omega
  | cons packet packets ih =>
    obtain ⟨hpacket, hpackets⟩ := List.forall_mem_cons.mp hall
    rw [List.flatten_cons, List.append_assoc, List.append_assoc] at heq
    have hnumber := hpacket.hexNumber_take (packets.flatten ++ (utf8 "0000" ++ p))
    rw [heq] at hnumber
    cases packets' with
    | nil => exact plus_notMem hnumber List.mem_cons_self
    | cons packet' packets' =>
      obtain ⟨hpacket', hpackets'⟩ := List.forall_mem_cons.mp hall'
      rw [List.flatten_cons, List.append_assoc] at heq hnumber
      have hlength : packet'.length = packet.length :=
        Option.some.inj ((hpacket'.hexNumber_take _).symm.trans hnumber)
      obtain ⟨-, hrest⟩ := List.append_inj heq hlength.symm
      exact ih hpackets packets' hpackets' (by rw [List.append_assoc]; exact hrest)

/-- **What the parser accepts is framed in pkt-lines exactly if no length has a sign.** -/
theorem framed_iff {limits : ProtocolLimits} {body p : Bytes} {updates : List RefUpdate}
    (h : readReceiveRequest limits body = .ok (updates, p)) :
    (∃ consumed, body = consumed ++ p ∧ Framed consumed) ↔ ¬ SignedLength body := by
  constructor
  · rintro ⟨consumed, rfl, packets, hall, rfl⟩
    exact not_signed_of_framed hall p
  · exact (framed_or_signed h).resolve_right

def oneCommand : Bytes :=
  (Packet.line (command ⟨.null, .fill 1, "refs/heads/a"⟩)).encode ++ utf8 "0000"

theorem framed_oneCommand :
    (∃ consumed, oneCommand ++ utf8 "PACK" = consumed ++ utf8 "PACK" ∧ Framed consumed) ↔
      ¬ SignedLength (oneCommand ++ utf8 "PACK") := by
  have hread : readReceiveRequest {} (oneCommand ++ utf8 "PACK") =
      .ok ([⟨.null, .fill 1, "refs/heads/a"⟩], utf8 "PACK") := by decide +kernel
  exact framed_iff hread

/-- The same command with a sign in its length, and a flush packet with a sign. -/
def signedCommand : Bytes := 43 :: (oneCommand.drop 1).take 98 ++ utf8 "+000"

/-- **A signed length is accepted**, though it is not four digits. -/
theorem signed_accepted :
    readReceiveRequest {} signedCommand = .ok ([⟨.null, .fill 1, "refs/heads/a"⟩], []) ∧
      ¬ ∃ consumed, signedCommand = consumed ++ [] ∧ Framed consumed := by
  refine ⟨by decide +kernel, ?_⟩
  rintro ⟨consumed, hsplit, packets, hall, rfl⟩
  refine not_signed_of_framed hall [] ⟨[], (oneCommand.drop 1).take 98 ++ utf8 "+000", by simp, ?_⟩
  rw [← hsplit]
  rfl

end Mizzle.Receive
