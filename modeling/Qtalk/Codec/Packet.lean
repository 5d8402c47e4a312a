import Qtalk.Codec.Decoder

/-!
# One packet, read and decoded

What `Decode` does in each way its reads can go, for any reader
(`Decode_plain`, `Decode_data` and the failing cases), and what `decode` makes of a
packet of the right layout: the message whose fields and body are the bytes given
(`decode_layout`). The two readers of the development only differ in the bytes they
put into these statements.
-/

namespace Qtalk.Codec
open Qtalk.Lib

theorem slice_ok {b : List UInt8} {i j : Nat} (hij : i ≤ j) (hj : j ≤ b.length) :
    slice b i j = .ok ((b.drop i).take (j - i)) := by
  simp [slice, hij, hj]

/-- The slice behind a prefix, up to the end. -/
theorem slice_suffix (a b : List UInt8) : slice (a ++ b) a.length (a ++ b).length = .ok b := by
  rw [slice_ok (by simp) (Nat.le_refl _)]
  simp

theorem uint32_ok {b : List UInt8} {i : Nat} (h : i + 4 ≤ b.length) :
    uint32 b i = .ok (beWord (b.drop i)) := by
  rw [uint32, slice_ok (Nat.le_add_right _ _) h]
  rw [Except.map, Nat.add_sub_cancel_left, beWord_take]

/-- A field read where the packet holds the bytes of `v`. -/
theorem uint32_field (a : List UInt8) (v : UInt32) (b : List UInt8) :
    uint32 (a ++ (beBytes v ++ b)) a.length = .ok v := by
  rw [uint32_ok (by simp only [List.length_append, beBytes_length]; omega), List.drop_left,
    beWord_beBytes]

section Unmarshal

variable {b d : List UInt8} {v1 v2 v3 v4 : UInt32}

theorem unmarshal_open (h1 : uint32 b 1 = .ok v1) (h2 : uint32 b 5 = .ok v2)
    (h3 : uint32 b 9 = .ok v3) :
    unmarshal msgChannelOpen b = .ok (.openMsg ⟨v1, v2, v3⟩) := by
  rw [unmarshal, if_pos rfl, h1, h2, h3]; rfl

theorem unmarshal_openConfirm (h1 : uint32 b 1 = .ok v1) (h2 : uint32 b 5 = .ok v2)
    (h3 : uint32 b 9 = .ok v3) (h4 : uint32 b 13 = .ok v4) :
    unmarshal msgChannelOpenConfirm b = .ok (.openConfirm ⟨v1, v2, v3, v4⟩) := by
  rw [unmarshal, h1, h2, h3, h4]; rfl

theorem unmarshal_openFailure (h1 : uint32 b 1 = .ok v1) :
    unmarshal msgChannelOpenFailure b = .ok (.openFailure ⟨v1⟩) := by
  rw [unmarshal, h1]; rfl

theorem unmarshal_windowAdjust (h1 : uint32 b 1 = .ok v1) (h2 : uint32 b 5 = .ok v2) :
    unmarshal msgChannelWindowAdjust b = .ok (.windowAdjust ⟨v1, v2⟩) := by
  rw [unmarshal, h1, h2]; rfl

theorem unmarshal_data (h1 : uint32 b 1 = .ok v1) (h2 : uint32 b 5 = .ok v2)
    (h3 : slice b 9 b.length = .ok d) :
    unmarshal msgChannelData b = .ok (.data ⟨v1, v2, d⟩) := by
  rw [unmarshal, h1, h2, h3]; rfl

theorem unmarshal_eof (h1 : uint32 b 1 = .ok v1) : unmarshal msgChannelEOF b = .ok (.eof ⟨v1⟩) := by
  rw [unmarshal, h1]; rfl

theorem unmarshal_close (h1 : uint32 b 1 = .ok v1) :
    unmarshal msgChannelClose b = .ok (.close ⟨v1⟩) := by
  rw [unmarshal, h1]; rfl

end Unmarshal

/-- `decode` undoes `Marshal`, for data of any length and whatever the length field says. -/
theorem decode_marshal (m : Message) : decode (marshal m) = .ok m := by
  rw [marshal_eq]
  cases m with
  | openMsg m =>
    exact unmarshal_open
      (uint32_field [msgChannelOpen] m.senderID (beBytes m.windowSize ++ beBytes m.maxPacketSize))
      (uint32_field (msgChannelOpen :: beBytes m.senderID) m.windowSize (beBytes m.maxPacketSize))
      (uint32_field (msgChannelOpen :: (beBytes m.senderID ++ beBytes m.windowSize)) m.maxPacketSize [])
  | openConfirm m =>
    exact unmarshal_openConfirm
      (uint32_field [msgChannelOpenConfirm] m.channelID
        (beBytes m.senderID ++ beBytes m.windowSize ++ beBytes m.maxPacketSize))
      (uint32_field (msgChannelOpenConfirm :: beBytes m.channelID) m.senderID
        (beBytes m.windowSize ++ beBytes m.maxPacketSize))
      (uint32_field (msgChannelOpenConfirm :: (beBytes m.channelID ++ beBytes m.senderID))
        m.windowSize (beBytes m.maxPacketSize))
      (uint32_field
        (msgChannelOpenConfirm :: (beBytes m.channelID ++ beBytes m.senderID ++ beBytes m.windowSize))
        m.maxPacketSize [])
  | openFailure m =>
    exact unmarshal_openFailure (uint32_field [msgChannelOpenFailure] m.channelID [])
  | windowAdjust m =>
    exact unmarshal_windowAdjust
      (uint32_field [msgChannelWindowAdjust] m.channelID (beBytes m.additionalBytes))
      (uint32_field (msgChannelWindowAdjust :: beBytes m.channelID) m.additionalBytes [])
  | data m =>
    exact unmarshal_data
      (uint32_field [msgChannelData] m.channelID (beBytes m.length ++ m.data))
      (uint32_field (msgChannelData :: beBytes m.channelID) m.length m.data)
      (slice_suffix (msgChannelData :: (beBytes m.channelID ++ beBytes m.length)) m.data)
  | eof m => exact unmarshal_eof (uint32_field [msgChannelEOF] m.channelID [])
  | close m => exact unmarshal_close (uint32_field [msgChannelClose] m.channelID [])

/-- A message is determined by its number, fields and body. -/
theorem Message.ext_wire {m m' : Message} (hn : m.num = m'.num) (hf : fields m = fields m')
    (hb : body m = body m') : m = m' := by
  have h := decode_marshal m
  rw [marshal_eq, hn, hf, hb, ← marshal_eq, decode_marshal] at h
  exact (Except.ok.inj h).symm

/-- Every packet of the layout the table gives is the encoding of a message. -/
theorem exists_message {t : UInt8} {rest data : List UInt8} (ht : IsMsgNum t)
    (hrest : rest.length = payloadSizes t) (hdata : t ≠ msgChannelData → data = []) :
    ∃ m : Message, m.num = t ∧ fields m = rest ∧ body m = data := by
  have words : ∀ n, payloadSizes t = 4 * n →
      ∃ ws : List UInt32, ws.length = n ∧ beWords ws = rest := fun n h =>
    exists_beWords (hrest.trans h)
  rcases isMsgNum_iff.mp ht with rfl | rfl | rfl | rfl | rfl | rfl | rfl
  · obtain ⟨ws, hlen, rfl⟩ := words 3 rfl
    obtain ⟨a, b, c, rfl⟩ := List.length_eq_three.mp hlen
    exact ⟨.openMsg ⟨a, b, c⟩, rfl, rfl, (hdata (by decide)).symm⟩
  · obtain ⟨ws, hlen, rfl⟩ := words 4 rfl
    obtain ⟨a, b, c, d, rfl⟩ := List.length_eq_four.mp hlen
    exact ⟨.openConfirm ⟨a, b, c, d⟩, rfl, rfl, (hdata (by decide)).symm⟩
  · obtain ⟨ws, hlen, rfl⟩ := words 1 rfl
    obtain ⟨a, rfl⟩ := List.length_eq_one_iff.mp hlen
    exact ⟨.openFailure ⟨a⟩, rfl, rfl, (hdata (by decide)).symm⟩
  · obtain ⟨ws, hlen, rfl⟩ := words 2 rfl
    obtain ⟨a, b, rfl⟩ := List.length_eq_two.mp hlen
    exact ⟨.windowAdjust ⟨a, b⟩, rfl, rfl, (hdata (by decide)).symm⟩
  · obtain ⟨ws, hlen, rfl⟩ := words 2 rfl
    obtain ⟨a, b, rfl⟩ := List.length_eq_two.mp hlen
    exact ⟨.data ⟨a, b, data⟩, rfl, rfl, rfl⟩
  · obtain ⟨ws, hlen, rfl⟩ := words 1 rfl
    obtain ⟨a, rfl⟩ := List.length_eq_one_iff.mp hlen
    exact ⟨.eof ⟨a⟩, rfl, rfl, (hdata (by decide)).symm⟩
  · obtain ⟨ws, hlen, rfl⟩ := words 1 rfl
    obtain ⟨a, rfl⟩ := List.length_eq_one_iff.mp hlen
    exact ⟨.close ⟨a⟩, rfl, rfl, (hdata (by decide)).symm⟩

/-- Decoding a packet of the right layout: the message with these fields and body. -/
theorem decode_layout {t : UInt8} (rest data : List UInt8) (ht : IsMsgNum t)
    (hrest : rest.length = payloadSizes t) (hdata : t ≠ msgChannelData → data = []) :
    ∃ m, decode (t :: (rest ++ data)) = .ok m ∧ m.num = t ∧ fields m = rest ∧ body m = data := by
  obtain ⟨m, hn, hf, hb⟩ := exists_message ht hrest hdata
  refine ⟨m, ?_, hn, hf, hb⟩
  rw [← hn, ← hf, ← hb, ← marshal_eq, decode_marshal]

theorem decode_unknown {t : UInt8} (ht : ¬ IsMsgNum t) (b : List UInt8) :
    decode (t :: b) = .error (.unexpectedType t) := by
  rw [isMsgNum_iff] at ht
  simp only [not_or] at ht
  simp [decode, unmarshal, ht]

/-- The length field of a data packet. -/
theorem beWord_fields_data (m : DataMessage) : beWord ((fields (.data m)).drop 4) = m.length := by
  have h : (fields (.data m)).drop 4 = beBytes m.length ++ [] := rfl
  rw [h, beWord_beBytes]

/-! ## The ways one `Decode` can go -/

section Decode

variable {σ : Type} {r : Reader σ} {s s1 s2 s3 : σ} {t : UInt8} {bs ds : List UInt8} {e : ReadError}

theorem Decode_noType (h : r 1 s = (.error e, s1)) : Decode r s = (.error (.read e), s1) := by
  simp [Decode, readPacket, h]

theorem Decode_noPayload (h1 : r 1 s = (.ok [t], s1))
    (h2 : r (payloadSizes t) s1 = (.error e, s2)) : Decode r s = (.error (.read e), s2) := by
  simp [Decode, readPacket, h1, h2, fillBuffer]

theorem Decode_plain (h1 : r 1 s = (.ok [t], s1)) (ht : t ≠ msgChannelData)
    (h2 : r (payloadSizes t) s1 = (.ok bs, s2)) :
    Decode r s = (decode (t :: fillBuffer (payloadSizes t) bs), s2) := by
  simp [Decode, readPacket, h1, h2, ht, show fillBuffer 1 [t] = [t] from rfl]

theorem readData_error {packet rest : List UInt8} (hrest : rest.length = 8)
    (h : r (beWord (rest.drop 4)).toNat s = (.error e, s1)) :
    readData r packet rest s = (.error (.read e), s1) := by
  have hsize : uint32 rest 4 = .ok (beWord (rest.drop 4)) := uint32_ok (by omega)
  simp [readData, hsize, h]

theorem readData_ok {packet rest : List UInt8} (hrest : rest.length = 8)
    (h : r (beWord (rest.drop 4)).toNat s = (.ok bs, s1)) :
    readData r packet rest s
      = (.ok (packet ++ fillBuffer (beWord (rest.drop 4)).toNat bs), s1) := by
  have hsize : uint32 rest 4 = .ok (beWord (rest.drop 4)) := uint32_ok (by omega)
  simp [readData, hsize, h]

theorem Decode_noData (h1 : r 1 s = (.ok [msgChannelData], s1)) (h2 : r 8 s1 = (.ok bs, s2))
    (h3 : r (beWord ((fillBuffer 8 bs).drop 4)).toNat s2 = (.error e, s3)) :
    Decode r s = (.error (.read e), s3) := by
  have hp : payloadSizes msgChannelData = 8 := rfl
  simp [Decode, readPacket, h1, show fillBuffer 1 [msgChannelData] = [msgChannelData] from rfl, hp,
    h2, readData_error (fillBuffer_length 8 bs) h3]

theorem Decode_data (h1 : r 1 s = (.ok [msgChannelData], s1)) (h2 : r 8 s1 = (.ok bs, s2))
    (h3 : r (beWord ((fillBuffer 8 bs).drop 4)).toNat s2 = (.ok ds, s3)) :
    Decode r s =
      (decode (msgChannelData :: (fillBuffer 8 bs ++
        fillBuffer (beWord ((fillBuffer 8 bs).drop 4)).toNat ds)), s3) := by
  have hp : payloadSizes msgChannelData = 8 := rfl
  simp [Decode, readPacket, h1, show fillBuffer 1 [msgChannelData] = [msgChannelData] from rfl, hp,
    h2, readData_ok (fillBuffer_length 8 bs) h3]

end Decode

end Qtalk.Codec
