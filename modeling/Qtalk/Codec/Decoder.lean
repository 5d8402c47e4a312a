import Qtalk.Codec.Encoder
import Qtalk.Lib.Framing
import Qtalk.Lib.Reader

/-!
# Decoding one packet

`readPacket`, `decode` and `Unmarshal` of `golang/mux/codec/decoder.go`, over any
reader. The three `Read` calls of `readPacket` ignore the count they get: what was
not delivered stays zero in the buffer (`fillBuffer`). Slices are checked, so a
slice out of range is a result of the model.
-/

namespace Qtalk.Codec
open Qtalk.Lib

inductive DecodeError where
  /-- the error of a `Read` -/
  | read (e : ReadError)
  /-- `qmux: unexpected message type %d` -/
  | unexpectedType (t : UInt8)
  /-- the run-time panic of an index or slice out of range -/
  | outOfRange
  deriving DecidableEq, Repr

/-- `b[i:j]`, checked against the length. -/
def slice (b : List UInt8) (i j : Nat) : Except DecodeError (List UInt8) :=
  if i ≤ j ∧ j ≤ b.length then .ok ((b.drop i).take (j - i)) else .error .outOfRange

/-- `binary.BigEndian.Uint32(b[i:i+4])`. -/
def uint32 (b : List UInt8) (i : Nat) : Except DecodeError UInt32 :=
  (slice b i (i + 4)).map beWord

/-- `Unmarshal` into a fresh message of the kind that `decode` allocated. -/
def unmarshal (t : UInt8) (b : List UInt8) : Except DecodeError Message :=
  if t = msgChannelOpen then do
    let senderID ← uint32 b 1
    let windowSize ← uint32 b 5
    let maxPacketSize ← uint32 b 9
    return .openMsg { senderID, windowSize, maxPacketSize }
  else if t = msgChannelData then do
    let channelID ← uint32 b 1
    let length ← uint32 b 5
    let data ← slice b 9 b.length
    return .data { channelID, length, data }
  else if t = msgChannelOpenConfirm then do
    let channelID ← uint32 b 1
    let senderID ← uint32 b 5
    let windowSize ← uint32 b 9
    let maxPacketSize ← uint32 b 13
    return .openConfirm { channelID, senderID, windowSize, maxPacketSize }
  else if t = msgChannelOpenFailure then do
    let channelID ← uint32 b 1
    return .openFailure { channelID }
  else if t = msgChannelWindowAdjust then do
    let channelID ← uint32 b 1
    let additionalBytes ← uint32 b 5
    return .windowAdjust { channelID, additionalBytes }
  else if t = msgChannelEOF then do
    let channelID ← uint32 b 1
    return .eof { channelID }
  else if t = msgChannelClose then do
    let channelID ← uint32 b 1
    return .close { channelID }
  else .error (.unexpectedType t)

/-- `decode`: the switch over `packet[0]`. -/
def decode : List UInt8 → Except DecodeError Message
  | [] => .error .outOfRange
  | t :: b => unmarshal t (t :: b)

variable {σ : Type}

/-- The third read of `readPacket`, for the data of a data message. -/
def readData (r : Reader σ) (packet rest : List UInt8) (s : σ) :
    Except DecodeError (List UInt8) × σ :=
  match uint32 rest 4 with
  | .error e => (.error e, s)
  | .ok dataSize =>
    match r dataSize.toNat s with
    | (.error e, s) => (.error (.read e), s)
    | (.ok bs, s) => (.ok (packet ++ fillBuffer dataSize.toNat bs), s)

/-- `readPacket`. -/
def readPacket (r : Reader σ) (s : σ) : Except DecodeError (List UInt8) × σ :=
  match r 1 s with
  | (.error e, s) => (.error (.read e), s)
  | (.ok bs, s) =>
    let msgNum := fillBuffer 1 bs
    let t := msgNum.headD 0
    match r (payloadSizes t) s with
    | (.error e, s) => (.error (.read e), s)
    | (.ok bs, s) =>
      let rest := fillBuffer (payloadSizes t) bs
      let packet := msgNum ++ rest
      if t = msgChannelData then readData r packet rest s else (.ok packet, s)

/-- `Decoder.Decode`. -/
def Decode (r : Reader σ) (s : σ) : Except DecodeError Message × σ :=
  match readPacket r s with
  | (.error e, s) => (.error e, s)
  | (.ok packet, s) => (decode packet, s)

end Qtalk.Codec
