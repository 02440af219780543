import Mizzle.Proto.Types

/-!
# The receive-pack request

`mizzle-proto/src/receive.rs`: the cheap classification used before the pack is written, the parser
of the command section of a receive-pack body, and the object count of a pack header. The parser
reads the body as a byte string and returns the bytes it leaves unread.
-/

namespace Mizzle.Receive

open Lib

/-- `preliminary_push_kind`: the classification that needs no object database. -/
def preliminaryPushKind (update : RefUpdate) : PushKind :=
  if update.oldOid.isNull then .create
  else if update.newOid.isNull then .delete
  else .fastForward

/-- `ProtocolLimits`, as far as the receive-pack parser reads it. -/
structure ProtocolLimits where
  maxRefUpdates : Nat := 10000

inductive ReceiveError where
  /-- `read_exact` met the end of the body. -/
  | unexpectedEof
  | invalidUtf8
  /-- `usize::from_str_radix` refused the length. -/
  | parseInt
  | invalidPktLineLength (len : Nat)
  /-- `ObjectId::from_hex` refused an oid. -/
  | invalidHex
  | limitExceeded (name : String) (count max : Nat)
deriving DecidableEq

/-- The texts that the parser itself fixes; the others come from the libraries it calls. -/
def ReceiveError.message : ReceiveError → Option String
  | .invalidPktLineLength len => some s!"invalid pkt-line length: {len}"
  | .limitExceeded name count max => some s!"too many {name} ({count} exceeds limit of {max})"
  | _ => none

/-- `check_limit` (`mizzle-proto/src/limits.rs`). -/
def checkLimit (count max : Nat) (name : String) : Except ReceiveError Unit :=
  if count ≤ max then .ok () else .error (.limitExceeded name count max)

/-- The value of a digit string in base 16. -/
def hexNumber (digits : Bytes) : Option Nat :=
  digits.foldlM (fun n b => (hexValue b).map (16 * n + ·)) 0

/-- `usize::from_str_radix(_, 16)`: at least one digit, after an optional plus sign. -/
def fromStrRadix16 (digits : Bytes) : Option Nat :=
  match digits with
  | [] => none
  | 43 :: rest => if rest = [] then none else hexNumber rest
  | _ => hexNumber digits

/-- `strip_suffix(b"\n")`, or the data itself. -/
def stripNewline (data : Bytes) : Bytes := if data.getLast? = some 10 then data.dropLast else data

theorem stripNewline_append (line : Bytes) : stripNewline (line ++ [10]) = line := by
  simp [stripNewline]

/-- One command line: old oid, new oid and refname, cut at the first two spaces. A line with fewer
spaces is skipped (`none`). On the first line everything after a NUL is capabilities. -/
def parseCommand (firstLine : Bool) (data : Bytes) : Except ReceiveError (Option RefUpdate) :=
  let line := if firstLine then (cut 0 data).1 else data
  match cut 32 line with
  | (_, none) => .ok none
  | (oldHex, some rest) =>
    match cut 32 rest with
    | (_, none) => .ok none
    | (newHex, some name) =>
      match ObjectId.fromHex oldHex, ObjectId.fromHex newHex with
      | some oldOid, some newOid =>
        match fromUtf8 name with
        | some refname => .ok (some ⟨oldOid, newOid, refname⟩)
        | none => .error .invalidUtf8
      | _, _ => .error .invalidHex

/-- The loop of `read_receive_request`: one pkt-line a round, until the flush packet. -/
def readCommands (limits : ProtocolLimits) (refUpdates : List RefUpdate) (firstLine : Bool)
    (body : Bytes) : Except ReceiveError (List RefUpdate × Bytes) :=
  if body.length < 4 then .error .unexpectedEof
  else if (fromUtf8 (body.take 4)).isNone then .error .invalidUtf8
  else
    match fromStrRadix16 (body.take 4) with
    | none => .error .parseInt
    | some len =>
      if len = 0 then .ok (refUpdates, body.drop 4)
      else if len < 4 then .error (.invalidPktLineLength len)
      else if body.length < len then .error .unexpectedEof
      else
        match parseCommand firstLine (stripNewline ((body.drop 4).take (len - 4))) with
        | .error e => .error e
        | .ok none => readCommands limits refUpdates false (body.drop len)
        | .ok (some update) =>
          match checkLimit (refUpdates.length + 1) limits.maxRefUpdates "ref updates" with
          | .error e => .error e
          | .ok () => readCommands limits (refUpdates ++ [update]) false (body.drop len)
termination_by body.length
decreasing_by all_goals simp only [List.length_drop]; omega

/-- `read_receive_request`: the parsed commands and the bytes left for the pack. -/
def readReceiveRequest (limits : ProtocolLimits) (body : Bytes) :
    Except ReceiveError (List RefUpdate × Bytes) :=
  readCommands limits [] true body

/-! ### The length of a parsed refname -/

theorem hexNumber_fold_lt {digits : Bytes} {m n : Nat}
    (h : digits.foldlM (fun n b => (hexValue b).map (16 * n + ·)) m = some n) :
    n < (m + 1) * 16 ^ digits.length := by
  induction digits generalizing m with
  | nil =>
    obtain rfl := Option.some.inj h
    simp
  | cons b digits ih =>
    obtain ⟨value, hvalue, hrest⟩ := Option.bind_eq_some_iff.mp h
    obtain ⟨d, hd, rfl⟩ := Option.map_eq_some_iff.mp hvalue
    have hdigit := hexValue_lt hd
    calc n < (16 * m + d + 1) * 16 ^ digits.length := ih hrest
      _ ≤ (16 * (m + 1)) * 16 ^ digits.length := Nat.mul_le_mul_right _ (by omega)
      _ = (m + 1) * 16 ^ (digits.length + 1) := by rw [pow_succ]; ring

theorem hexNumber_lt {digits : Bytes} {n : Nat} (h : hexNumber digits = some n) :
    n < 16 ^ digits.length := by
  simpa using hexNumber_fold_lt h

theorem fromStrRadix16_lt {digits : Bytes} {n : Nat} (hlength : digits.length ≤ 4)
    (h : fromStrRadix16 digits = some n) : n < 65536 := by
  have hpow : ∀ ds : Bytes, ds.length ≤ 4 → 16 ^ ds.length ≤ 65536 := fun ds hds =>
    Nat.pow_le_pow_right (by norm_num) hds
  unfold fromStrRadix16 at h
  split at h
  · simp at h
  · rename_i rest
    split at h
    · simp at h
    · have hrest : rest.length ≤ 4 := by
        simp only [List.length_cons] at hlength
        omega
      exact (hexNumber_lt h).trans_le (hpow rest hrest)
  · exact (hexNumber_lt h).trans_le (hpow digits hlength)

theorem parseCommand_length {firstLine : Bool} {data : Bytes} {u : RefUpdate}
    (h : parseCommand firstLine data = .ok (some u)) :
    (utf8 u.refname).length + 82 ≤ data.length := by
  simp only [parseCommand] at h
  split at h
  · simp at h
  · rename_i oldHex rest hcut
    split at h
    · simp at h
    · rename_i newHex name hcut'
      split at h
      · rename_i oldOid newOid hold hnew
        split at h
        · rename_i refname hname
          obtain rfl := Option.some.inj (Except.ok.inj h)
          have hline : (if firstLine = true then (cut 0 data).1 else data).length ≤ data.length := by
            split
            · exact length_cut_fst_le 0 data
            · exact le_rfl
          have hfirst := length_cut hcut
          have hsecond := length_cut hcut'
          have holdLength := ObjectId.length_of_fromHex hold
          have hnewLength := ObjectId.length_of_fromHex hnew
          have hnameLength := length_utf8_of_fromUtf8 hname
          simp only
          omega
        · simp at h
      · simp at h

theorem length_stripNewline_le (data : Bytes) : (stripNewline data).length ≤ data.length := by
  unfold stripNewline
  split
  · simp
  · exact le_rfl

theorem readCommands_refname_length {limits : ProtocolLimits} {before : List RefUpdate}
    {firstLine : Bool} {body rest : Bytes} {updates : List RefUpdate}
    (hbefore : ∀ u ∈ before, (utf8 u.refname).length ≤ 65449)
    (h : readCommands limits before firstLine body = .ok (updates, rest)) :
    ∀ u ∈ updates, (utf8 u.refname).length ≤ 65449 := by
  -- along the recursion of the parser: the commands read so far keep the bound
  fun_induction readCommands limits before firstLine body with
  | case1 | case2 | case3 | case5 | case6 | case7 | case9 => simp at h
  | case4 before firstLine body =>
    obtain ⟨rfl, -⟩ := Prod.mk.inj (Except.ok.inj h)
    exact hbefore
  | case8 before firstLine body hlong hutf8 len hlen hne hfour hbody hparse ih => exact ih hbefore h
  | case10 before firstLine body hlong hutf8 len hlen hne hfour hbody update hparse hlimit ih =>
    refine ih (fun u hu => ?_) h
    rcases List.mem_append.mp hu with hu | hu
    · exact hbefore u hu
    · obtain rfl := List.mem_singleton.mp hu
      have hlength := parseCommand_length hparse
      have hdata := length_stripNewline_le ((body.drop 4).take (len - 4))
      have hlt := fromStrRadix16_lt (by simp) hlen
      rw [List.length_take] at hdata
      omega

/-- **The refname of a parsed command has at most 65449 bytes.** -/
theorem readReceiveRequest_refname_length {limits : ProtocolLimits} {body rest : Bytes}
    {updates : List RefUpdate} (h : readReceiveRequest limits body = .ok (updates, rest)) :
    ∀ u ∈ updates, (utf8 u.refname).length ≤ 65449 :=
  readCommands_refname_length (fun _ hu => absurd hu List.not_mem_nil) h

/-- `pack_object_count`: the big-endian count in the header of a pack. -/
def packObjectCount (data : Bytes) : Option Nat :=
  if 12 ≤ data.length ∧ data.take 4 = utf8 "PACK" then
    some (((data.drop 8).take 4).foldl (fun n b => 256 * n + b.toNat) 0)
  else none

end Mizzle.Receive
