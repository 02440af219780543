import Mizzle.Lib.Bytes

/-!
# pkt-lines

The packets that the server writes: text lines, which get a newline, and the flush packet. The four
hexadecimal digits in front of a line count themselves, the text and the newline. `text_to_write` of
`gix_packetline` refuses a line whose text and newline are longer than `maxDataLen`, before it
writes anything.
-/

namespace Mizzle.Proto

open Lib

inductive Packet where
  | line (text : Bytes)
  | flush
deriving DecidableEq

/-- `MAX_DATA_LEN` of `gix_packetline`. -/
def maxDataLen : Nat := 65516

/-- A text that fits in a packet with its newline. -/
def Fits (text : Bytes) : Prop := text.length + 1 ≤ maxDataLen

instance (text : Bytes) : Decidable (Fits text) := inferInstanceAs (Decidable (_ ≤ _))

/-- `u16_to_hex`. -/
def u16ToHex (n : Nat) : Bytes :=
  [hexDigit (n / 4096 % 16), hexDigit (n / 256 % 16), hexDigit (n / 16 % 16), hexDigit (n % 16)]

/-- The bytes of a packet on the wire. -/
def Packet.encode : Packet → Bytes
  | .line text => u16ToHex (text.length + 5) ++ text ++ [10]
  | .flush => u16ToHex 0

end Mizzle.Proto
