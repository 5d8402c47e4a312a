import Qtalk.Codec.Messages
import Qtalk.Lib.BigEndian

/-!
# Marshal

`Marshal` of `golang/mux/codec/encoder.go`: a packet of the kind's size is
allocated and the fields are written at fixed offsets. `marshal_*` give the same
bytes as a concatenation.
-/

namespace Qtalk.Codec
open Qtalk.Lib

/-- `make([]byte, payloadSizes[t]+1)` with the message number in front. -/
def newPacket (t : UInt8) : List UInt8 :=
  (List.replicate (payloadSizes t + 1) 0).set 0 t

/-- `binary.BigEndian.PutUint32(packet[i:i+4], v)`. -/
def putUint32 (packet : List UInt8) (i : Nat) (v : UInt32) : List UInt8 :=
  packet.take i ++ beBytes v ++ packet.drop (i + 4)

/-- `Marshal`. Its default branch, for values that are no message, does not arise. -/
def marshal : Message → List UInt8
  | .openMsg m =>
    let packet := newPacket msgChannelOpen
    let packet := putUint32 packet 1 m.senderID
    let packet := putUint32 packet 5 m.windowSize
    putUint32 packet 9 m.maxPacketSize
  | .openConfirm m =>
    let packet := newPacket msgChannelOpenConfirm
    let packet := putUint32 packet 1 m.channelID
    let packet := putUint32 packet 5 m.senderID
    let packet := putUint32 packet 9 m.windowSize
    putUint32 packet 13 m.maxPacketSize
  | .openFailure m => putUint32 (newPacket msgChannelOpenFailure) 1 m.channelID
  | .windowAdjust m =>
    let packet := newPacket msgChannelWindowAdjust
    let packet := putUint32 packet 1 m.channelID
    putUint32 packet 5 m.additionalBytes
  | .data m =>
    let packet := newPacket msgChannelData
    let packet := putUint32 packet 1 m.channelID
    putUint32 packet 5 m.length ++ m.data
  | .eof m => putUint32 (newPacket msgChannelEOF) 1 m.channelID
  | .close m => putUint32 (newPacket msgChannelClose) 1 m.channelID

/-- The payload of a message: its fields in wire order. -/
def fields : Message → List UInt8
  | .openMsg m => beBytes m.senderID ++ beBytes m.windowSize ++ beBytes m.maxPacketSize
  | .openConfirm m =>
    beBytes m.channelID ++ beBytes m.senderID ++ beBytes m.windowSize ++ beBytes m.maxPacketSize
  | .openFailure m => beBytes m.channelID
  | .windowAdjust m => beBytes m.channelID ++ beBytes m.additionalBytes
  | .data m => beBytes m.channelID ++ beBytes m.length
  | .eof m => beBytes m.channelID
  | .close m => beBytes m.channelID

/-- The bytes behind the fixed payload: the data of a data message. -/
def body : Message → List UInt8
  | .data m => m.data
  | _ => []

/-- `Marshal` writes number, fields and data in a row. -/
theorem marshal_eq (m : Message) : marshal m = m.num :: (fields m ++ body m) := by
  cases m <;> rfl

/-- The fields fill exactly the size the table gives. -/
theorem fields_length (m : Message) : (fields m).length = payloadSizes m.num := by
  cases m <;> rfl

theorem isMsgNum_num (m : Message) : IsMsgNum m.num := by
  cases m <;> simp only [Message.num] <;> decide

end Qtalk.Codec
