import Mathlib.Algebra.BigOperators.Group.List.Basic
import Mathlib.Algebra.Order.Ring.Nat

/-!
# The qmux messages

The seven message kinds of `golang/mux/codec/messages.go`, their numbers on the
wire and the table of payload sizes.
-/

namespace Qtalk.Codec

def msgChannelOpen : UInt8 := 100
def msgChannelOpenConfirm : UInt8 := 101
def msgChannelOpenFailure : UInt8 := 102
def msgChannelWindowAdjust : UInt8 := 103
def msgChannelData : UInt8 := 104
def msgChannelEOF : UInt8 := 105
def msgChannelClose : UInt8 := 106

/-- The map `payloadSizes`; a missing key reads as zero. -/
def payloadSizes (t : UInt8) : Nat :=
  if t = msgChannelOpen then 12
  else if t = msgChannelOpenConfirm then 16
  else if t = msgChannelOpenFailure then 4
  else if t = msgChannelWindowAdjust then 8
  else if t = msgChannelData then 8
  else if t = msgChannelEOF then 4
  else if t = msgChannelClose then 4
  else 0

structure OpenMessage where
  senderID : UInt32
  windowSize : UInt32
  maxPacketSize : UInt32
  deriving DecidableEq, Repr

structure OpenConfirmMessage where
  channelID : UInt32
  senderID : UInt32
  windowSize : UInt32
  maxPacketSize : UInt32
  deriving DecidableEq, Repr

structure OpenFailureMessage where
  channelID : UInt32
  deriving DecidableEq, Repr

structure WindowAdjustMessage where
  channelID : UInt32
  additionalBytes : UInt32
  deriving DecidableEq, Repr

structure DataMessage where
  channelID : UInt32
  length : UInt32
  data : List UInt8
  deriving DecidableEq, Repr

structure EOFMessage where
  channelID : UInt32
  deriving DecidableEq, Repr

structure CloseMessage where
  channelID : UInt32
  deriving DecidableEq, Repr

/-- The interface `Message` with its seven implementations. -/
inductive Message where
  | openMsg (m : OpenMessage)
  | openConfirm (m : OpenConfirmMessage)
  | openFailure (m : OpenFailureMessage)
  | windowAdjust (m : WindowAdjustMessage)
  | data (m : DataMessage)
  | eof (m : EOFMessage)
  | close (m : CloseMessage)
  deriving DecidableEq, Repr

/-- `Channel()`: the id the message is addressed to, and whether it has one. -/
def Message.channel : Message → UInt32 × Bool
  | .openMsg _ => (0, false)
  | .openConfirm m => (m.channelID, true)
  | .openFailure m => (m.channelID, true)
  | .windowAdjust m => (m.channelID, true)
  | .data m => (m.channelID, true)
  | .eof m => (m.channelID, true)
  | .close m => (m.channelID, true)

/-- The number `Marshal` writes in front of a message. -/
def Message.num : Message → UInt8
  | .openMsg _ => msgChannelOpen
  | .openConfirm _ => msgChannelOpenConfirm
  | .openFailure _ => msgChannelOpenFailure
  | .windowAdjust _ => msgChannelWindowAdjust
  | .data _ => msgChannelData
  | .eof _ => msgChannelEOF
  | .close _ => msgChannelClose

/-- A data message whose length field is the length of its data; every other kind. -/
def Message.WellSized : Message → Prop
  | .data m => m.length.toNat = m.data.length
  | _ => True

instance (m : Message) : Decidable m.WellSized := by
  unfold Message.WellSized; split <;> infer_instance

/-- The seven message numbers. -/
def IsMsgNum (t : UInt8) : Prop := 100 ≤ t ∧ t ≤ 106

instance (t : UInt8) : Decidable (IsMsgNum t) := inferInstanceAs (Decidable (_ ∧ _))

theorem isMsgNum_iff {t : UInt8} :
    IsMsgNum t ↔ t = msgChannelOpen ∨ t = msgChannelOpenConfirm ∨ t = msgChannelOpenFailure ∨
      t = msgChannelWindowAdjust ∨ t = msgChannelData ∨ t = msgChannelEOF ∨
      t = msgChannelClose := by
  simp only [IsMsgNum, UInt8.le_iff_toNat_le, ← UInt8.toNat_inj, msgChannelOpen,
    msgChannelOpenConfirm, msgChannelOpenFailure, msgChannelWindowAdjust, msgChannelData,
    msgChannelEOF, msgChannelClose, UInt8.toNat_ofNat]
  omega

/-- A number outside the table has no payload. -/
theorem payloadSizes_eq_zero {t : UInt8} : payloadSizes t = 0 ↔ ¬ IsMsgNum t := by
  rw [isMsgNum_iff]
  constructor
  · intro h hm
    rcases hm with rfl | rfl | rfl | rfl | rfl | rfl | rfl <;> exact absurd h (by decide)
  · intro hm
    simp only [not_or] at hm
    simp [payloadSizes, hm]

end Qtalk.Codec
