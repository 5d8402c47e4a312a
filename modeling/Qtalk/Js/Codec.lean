import Qtalk.Codec.Messages
import Qtalk.Js.Bytes
import Qtalk.Lib.Reader

/-!
# The TypeScript codec

`Marshal`, `readPacket` and `Unmarshal` of `javascript/mux/codec`, over any connection
whose `read` is a `Reader`: `eof` stands for a `read` that resolves with undefined, and
`blocked` for one that has not settled.
-/

namespace Qtalk.Js
open Qtalk.Lib

def OpenID : UInt8 := 100
def OpenConfirmID : UInt8 := 101
def OpenFailureID : UInt8 := 102
def WindowAdjustID : UInt8 := 103
def DataID : UInt8 := 104
def EofID : UInt8 := 105
def CloseID : UInt8 := 106

/-- The map `payloadSizes`. -/
def payloadSizes (t : UInt8) : Option Nat :=
  if t = OpenID then some 12
  else if t = OpenConfirmID then some 16
  else if t = OpenFailureID then some 4
  else if t = WindowAdjustID then some 8
  else if t = DataID then some 8
  else if t = EofID then some 4
  else if t = CloseID then some 4
  else none

/-- `AnyMessage`; the fields are numbers. -/
inductive Message where
  | openMsg (senderID windowSize maxPacketSize : Nat)
  | openConfirm (channelID senderID windowSize maxPacketSize : Nat)
  | openFailure (channelID : Nat)
  | windowAdjust (channelID additionalBytes : Nat)
  | data (channelID length : Nat) (data : List UInt8)
  | eof (channelID : Nat)
  | close (channelID : Nat)
  deriving DecidableEq, Repr

/-- `new ArrayBuffer(n)` with the message number in front. -/
def newBuffer (n : Nat) (id : UInt8) : List UInt8 := (List.replicate n 0).set 0 id

/-- `Marshal`. Its last statement, for objects that are no message, does not arise. -/
def Marshal : Message → Option (List UInt8)
  | .close channelID => some (setUint32 (newBuffer 5 CloseID) 1 channelID)
  | .data channelID length data => do
    let head := newBuffer 9 DataID
    let head := setUint32 head 1 channelID
    let head := setUint32 head 5 length
    let buf ← setArray (List.replicate (9 + length) 0) head 0
    setArray buf data 9
  | .eof channelID => some (setUint32 (newBuffer 5 EofID) 1 channelID)
  | .openMsg senderID windowSize maxPacketSize =>
    let data := newBuffer 13 OpenID
    let data := setUint32 data 1 senderID
    let data := setUint32 data 5 windowSize
    some (setUint32 data 9 maxPacketSize)
  | .openConfirm channelID senderID windowSize maxPacketSize =>
    let data := newBuffer 17 OpenConfirmID
    let data := setUint32 data 1 channelID
    let data := setUint32 data 5 senderID
    let data := setUint32 data 9 windowSize
    some (setUint32 data 13 maxPacketSize)
  | .openFailure channelID => some (setUint32 (newBuffer 5 OpenFailureID) 1 channelID)
  | .windowAdjust channelID additionalBytes =>
    let data := newBuffer 9 WindowAdjustID
    let data := setUint32 data 1 channelID
    some (setUint32 data 5 additionalBytes)

/-- What a call of `decode` comes to when it is not a message. -/
inductive DecodeError where
  /-- it resolves with undefined -/
  | ended
  /-- `bad packet: ${msgID}` -/
  | badPacket (t : UInt8)
  /-- `unexpected EOF` -/
  | unexpectedEOF
  /-- a `RangeError` -/
  | range
  /-- `unmarshal of unknown type: ${packet[0]}` -/
  | unknownType (t : UInt8)
  /-- it has not settled -/
  | waiting
  deriving DecidableEq, Repr

def orRange {α : Type} (o : Option α) : Except DecodeError α :=
  match o with
  | some a => .ok a
  | none => .error .range

/-- `Unmarshal`. -/
def Unmarshal (packet : List UInt8) : Except DecodeError Message :=
  let t := packet.headD 0
  let getUint32 i := orRange (getUint32 packet i)
  if t = CloseID then do
    return .close (← getUint32 1)
  else if t = DataID then do
    let dataLength ← getUint32 5
    let rest := packet.drop 9
    return .data (← getUint32 1) dataLength rest
  else if t = EofID then do
    return .eof (← getUint32 1)
  else if t = OpenID then do
    return .openMsg (← getUint32 1) (← getUint32 5) (← getUint32 9)
  else if t = OpenConfirmID then do
    return .openConfirm (← getUint32 1) (← getUint32 5) (← getUint32 9) (← getUint32 13)
  else if t = OpenFailureID then do
    return .openFailure (← getUint32 1)
  else if t = WindowAdjustID then do
    return .windowAdjust (← getUint32 1) (← getUint32 5)
  else .error (.unknownType t)

variable {σ : Type}

/-- The value of `await conn.read(len)`; `ended` where it is undefined. -/
def awaitRead (r : Reader σ) (len : Nat) (s : σ) : Except DecodeError (List UInt8) × σ :=
  match r len s with
  | (.ok bs, s) => (.ok bs, s)
  | (.error .blocked, s) => (.error .waiting, s)
  | (.error _, s) => (.error .ended, s)

/-- A `read` whose undefined is rejected with `unexpected EOF`. -/
def mustRead (r : Reader σ) (len : Nat) (s : σ) : Except DecodeError (List UInt8) × σ :=
  match awaitRead r len s with
  | (.error .ended, s) => (.error .unexpectedEOF, s)
  | res => res

/-- `readPacket`. -/
def readPacket (r : Reader σ) (s : σ) : Except DecodeError (List UInt8) × σ :=
  match awaitRead r 1 s with
  | (.error e, s) => (.error e, s)
  | (.ok head, s) =>
    let msgID := head.headD 0
    match payloadSizes msgID with
    | none => (.error (.badPacket msgID), s)
    | some size =>
      if msgID < OpenID ∨ msgID > CloseID then (.error (.badPacket msgID), s)
      else
        match mustRead r size s with
        | (.error e, s) => (.error e, s)
        | (.ok rest, s) =>
          if msgID = DataID then
            match getUint32 rest 4 with
            | none => (.error .range, s)
            | some length =>
              match mustRead r length s with
              | (.error e, s) => (.error e, s)
              | (.ok data, s) => (orRange (concat [head, rest, data] (length + rest.length + 1)), s)
          else (orRange (concat [head, rest] (rest.length + 1)), s)

/-- `Decoder.decode`. -/
def decode (r : Reader σ) (s : σ) : Except DecodeError Message × σ :=
  match readPacket r s with
  | (.error e, s) => (.error e, s)
  | (.ok packet, s) => (Unmarshal packet, s)

/-! ## The ways one `decode` can go -/

/-- Both programs use the same seven numbers. -/
theorem isMsgNum_iff {t : UInt8} :
    Codec.IsMsgNum t ↔ t = OpenID ∨ t = OpenConfirmID ∨ t = OpenFailureID ∨ t = WindowAdjustID ∨
      t = DataID ∨ t = EofID ∨ t = CloseID :=
  Codec.isMsgNum_iff

/-- The table has the sizes of the seven message numbers and nothing else. -/
theorem payloadSizes_eq (t : UInt8) :
    payloadSizes t = if Codec.IsMsgNum t then some (Codec.payloadSizes t) else none := by
  by_cases ht : Codec.IsMsgNum t
  · rw [if_pos ht]
    rcases isMsgNum_iff.mp ht with rfl | rfl | rfl | rfl | rfl | rfl | rfl <;> rfl
  · rw [if_neg ht]
    simp only [isMsgNum_iff, not_or] at ht
    obtain ⟨h0, h1, h2, h3, h4, h5, h6⟩ := ht
    rw [payloadSizes, if_neg h0, if_neg h1, if_neg h2, if_neg h3, if_neg h4, if_neg h5, if_neg h6]

theorem msgID_in_range {t : UInt8} (ht : Codec.IsMsgNum t) : ¬ (t < OpenID ∨ t > CloseID) := by
  rw [not_or]
  exact ⟨UInt8.not_lt.mpr ht.1, UInt8.not_lt.mpr ht.2⟩

section Decode

variable {r : Reader σ} {s s1 s2 s3 : σ} {t : UInt8} {bs ds rest : List UInt8} {e : DecodeError}

theorem awaitRead_ok {n : Nat} (h : r n s = (.ok bs, s1)) : awaitRead r n s = (.ok bs, s1) := by
  rw [awaitRead, h]

theorem mustRead_ok {n : Nat} (h : r n s = (.ok bs, s1)) : mustRead r n s = (.ok bs, s1) := by
  rw [mustRead, awaitRead_ok h]

theorem awaitRead_error {n : Nat} {e : ReadError} (h : r n s = (.error e, s1)) :
    ∃ e', awaitRead r n s = (.error e', s1) := by
  rw [awaitRead, h]
  cases e <;> exact ⟨_, rfl⟩

theorem mustRead_error {n : Nat} {e : ReadError} (h : r n s = (.error e, s1)) :
    ∃ e', mustRead r n s = (.error e', s1) := by
  obtain ⟨e', he⟩ := awaitRead_error h
  rw [mustRead, he]
  cases e' <;> exact ⟨_, rfl⟩

theorem decode_noType (h : awaitRead r 1 s = (.error e, s1)) : decode r s = (.error e, s1) := by
  rw [decode, readPacket, h]

theorem decode_badPacket (h1 : awaitRead r 1 s = (.ok [t], s1)) (ht : ¬ Codec.IsMsgNum t) :
    decode r s = (.error (.badPacket t), s1) := by
  simp only [decode, readPacket, h1, List.headD_cons, payloadSizes_eq, if_neg ht]

theorem decode_noPayload (h1 : awaitRead r 1 s = (.ok [t], s1)) (ht : Codec.IsMsgNum t)
    (h2 : mustRead r (Codec.payloadSizes t) s1 = (.error e, s2)) : decode r s = (.error e, s2) := by
  simp only [decode, readPacket, h1, List.headD_cons, payloadSizes_eq, if_pos ht,
    if_neg (msgID_in_range ht), h2]

theorem decode_plain (h1 : awaitRead r 1 s = (.ok [t], s1)) (ht : Codec.IsMsgNum t)
    (hd : t ≠ DataID) (h2 : mustRead r (Codec.payloadSizes t) s1 = (.ok rest, s2)) :
    decode r s = (Unmarshal (t :: rest), s2) := by
  have hc : concat [[t], rest] (rest.length + 1) = some (t :: (rest ++ [])) := concat_eq (by simp)
  rw [List.append_nil] at hc
  simp only [decode, readPacket, h1, List.headD_cons, payloadSizes_eq, if_pos ht,
    if_neg (msgID_in_range ht), h2, if_neg hd, hc, orRange]

theorem decode_noData (h1 : awaitRead r 1 s = (.ok [DataID], s1))
    (h2 : mustRead r 8 s1 = (.ok rest, s2)) (hrest : rest.length = 8)
    (h3 : mustRead r (beWord (rest.drop 4)).toNat s2 = (.error e, s3)) :
    decode r s = (.error e, s3) := by
  have ht : Codec.IsMsgNum DataID := by decide
  have hp : Codec.payloadSizes DataID = 8 := rfl
  have hlen : getUint32 rest 4 = some (beWord (rest.drop 4)).toNat := if_pos (by omega)
  simp only [decode, readPacket, h1, List.headD_cons, payloadSizes_eq, if_pos ht, hp,
    if_neg (msgID_in_range ht), h2, if_true, hlen, h3]

/-- What `readPacket` makes of the data it got, whatever its length. -/
theorem decode_data (h1 : awaitRead r 1 s = (.ok [DataID], s1))
    (h2 : mustRead r 8 s1 = (.ok rest, s2)) (hrest : rest.length = 8)
    (h3 : mustRead r (beWord (rest.drop 4)).toNat s2 = (.ok ds, s3)) :
    decode r s =
      (orRange (concat [[DataID], rest, ds] ((beWord (rest.drop 4)).toNat + rest.length + 1))
        >>= Unmarshal, s3) := by
  have ht : Codec.IsMsgNum DataID := by decide
  have hp : Codec.payloadSizes DataID = 8 := rfl
  have hlen : getUint32 rest 4 = some (beWord (rest.drop 4)).toNat := if_pos (by omega)
  simp only [decode, readPacket, h1, List.headD_cons, payloadSizes_eq, if_pos ht, hp,
    if_neg (msgID_in_range ht), h2, if_true, hlen, h3]
  cases concat [[DataID], rest, ds] ((beWord (rest.drop 4)).toNat + rest.length + 1) <;> rfl

theorem decode_exactData (h1 : awaitRead r 1 s = (.ok [DataID], s1))
    (h2 : mustRead r 8 s1 = (.ok rest, s2)) (hrest : rest.length = 8)
    (h3 : mustRead r (beWord (rest.drop 4)).toNat s2 = (.ok ds, s3))
    (hds : ds.length = (beWord (rest.drop 4)).toNat) :
    decode r s = (Unmarshal (DataID :: (rest ++ ds)), s3) := by
  have hc : concat [[DataID], rest, ds] ((beWord (rest.drop 4)).toNat + rest.length + 1)
      = some (DataID :: (rest ++ (ds ++ []))) := concat_eq (by simp [hds]; omega)
  rw [List.append_nil] at hc
  rw [decode_data h1 h2 hrest h3, hc]
  rfl

end Decode

end Qtalk.Js
