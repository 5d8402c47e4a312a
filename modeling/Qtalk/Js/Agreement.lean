import Qtalk.Codec.Total
import Qtalk.Js.Codec

/-!
# One wire format

The Go and the TypeScript codec side by side. `ofGo` renames a message of one into the
other. Both `Marshal`s write the same bytes (`Marshal_ofGo`), and over one transport that
reads exactly what it is asked for, both decoders read in step, so they fail together or
return the same message (`decode_agrees`).
-/

namespace Qtalk.Js
open Qtalk.Lib

/-- The same message with numbers for words. -/
def ofGo : Codec.Message → Message
  | .openMsg m => .openMsg m.senderID.toNat m.windowSize.toNat m.maxPacketSize.toNat
  | .openConfirm m =>
    .openConfirm m.channelID.toNat m.senderID.toNat m.windowSize.toNat m.maxPacketSize.toNat
  | .openFailure m => .openFailure m.channelID.toNat
  | .windowAdjust m => .windowAdjust m.channelID.toNat m.additionalBytes.toNat
  | .data m => .data m.channelID.toNat m.length.toNat m.data
  | .eof m => .eof m.channelID.toNat
  | .close m => .close m.channelID.toNat

/-- Fields that are words, and a length field that is the length of the data. -/
def Message.Fits : Message → Prop
  | .openMsg senderID windowSize maxPacketSize =>
    senderID < 2 ^ 32 ∧ windowSize < 2 ^ 32 ∧ maxPacketSize < 2 ^ 32
  | .openConfirm channelID senderID windowSize maxPacketSize =>
    channelID < 2 ^ 32 ∧ senderID < 2 ^ 32 ∧ windowSize < 2 ^ 32 ∧ maxPacketSize < 2 ^ 32
  | .openFailure channelID => channelID < 2 ^ 32
  | .windowAdjust channelID additionalBytes => channelID < 2 ^ 32 ∧ additionalBytes < 2 ^ 32
  | .data channelID length bs => channelID < 2 ^ 32 ∧ length < 2 ^ 32 ∧ length = bs.length
  | .eof channelID => channelID < 2 ^ 32
  | .close channelID => channelID < 2 ^ 32

instance : (m : Message) → Decidable m.Fits
  | .openMsg .. => inferInstanceAs (Decidable (_ ∧ _))
  | .openConfirm .. => inferInstanceAs (Decidable (_ ∧ _))
  | .openFailure channelID => inferInstanceAs (Decidable (channelID < 2 ^ 32))
  | .windowAdjust .. => inferInstanceAs (Decidable (_ ∧ _))
  | .data .. => inferInstanceAs (Decidable (_ ∧ _))
  | .eof channelID => inferInstanceAs (Decidable (channelID < 2 ^ 32))
  | .close channelID => inferInstanceAs (Decidable (channelID < 2 ^ 32))

/-- The same message with words for numbers. -/
def toGo : Message → Codec.Message
  | .openMsg senderID windowSize maxPacketSize =>
    .openMsg ⟨.ofNat senderID, .ofNat windowSize, .ofNat maxPacketSize⟩
  | .openConfirm channelID senderID windowSize maxPacketSize =>
    .openConfirm ⟨.ofNat channelID, .ofNat senderID, .ofNat windowSize, .ofNat maxPacketSize⟩
  | .openFailure channelID => .openFailure ⟨.ofNat channelID⟩
  | .windowAdjust channelID additionalBytes =>
    .windowAdjust ⟨.ofNat channelID, .ofNat additionalBytes⟩
  | .data channelID length data => .data ⟨.ofNat channelID, .ofNat length, data⟩
  | .eof channelID => .eof ⟨.ofNat channelID⟩
  | .close channelID => .close ⟨.ofNat channelID⟩

@[simp] theorem toGo_ofGo (g : Codec.Message) : toGo (ofGo g) = g := by
  cases g <;> simp only [ofGo, toGo, UInt32.ofNat_toNat]

/-- `ofGo` loses nothing. -/
theorem ofGo_inj {g g' : Codec.Message} (h : ofGo g = ofGo g') : g = g' := by
  rw [← toGo_ofGo g, h, toGo_ofGo]

theorem toNat_ofNat_word {n : Nat} (h : n < 2 ^ 32) : (UInt32.ofNat n).toNat = n := by
  rw [UInt32.toNat_ofNat']
  exact Nat.mod_eq_of_lt h

theorem ofGo_toGo {m : Message} (h : m.Fits) : ofGo (toGo m) = m := by
  cases m with
  | data channelID length data => rw [toGo, ofGo, toNat_ofNat_word h.1, toNat_ofNat_word h.2.1]
  | _ =>
    simp only [Message.Fits] at h
    simp only [toGo, ofGo, h, toNat_ofNat_word]

theorem wellSized_toGo {m : Message} (h : m.Fits) : (toGo m).WellSized := by
  cases m with
  | data channelID length data => exact (toNat_ofNat_word h.2.1).trans h.2.2
  | _ => trivial

theorem fits_ofGo {g : Codec.Message} (hg : g.WellSized) : (ofGo g).Fits := by
  cases g with
  | openMsg m => exact ⟨m.senderID.toNat_lt, m.windowSize.toNat_lt, m.maxPacketSize.toNat_lt⟩
  | openConfirm m =>
    exact ⟨m.channelID.toNat_lt, m.senderID.toNat_lt, m.windowSize.toNat_lt,
      m.maxPacketSize.toNat_lt⟩
  | openFailure m => exact m.channelID.toNat_lt
  | windowAdjust m => exact ⟨m.channelID.toNat_lt, m.additionalBytes.toNat_lt⟩
  | data m => exact ⟨m.channelID.toNat_lt, m.length.toNat_lt, hg⟩
  | eof m => exact m.channelID.toNat_lt
  | close m => exact m.channelID.toNat_lt

/-! ## Marshal -/

theorem setUint32_word (buf : List UInt8) (i : Nat) (v : UInt32) :
    setUint32 buf i v.toNat = Codec.putUint32 buf i v := by
  rw [setUint32, UInt32.ofNat_toNat, Codec.putUint32]

/-- Both `Marshal`s write the same bytes. -/
theorem Marshal_ofGo {g : Codec.Message} (hg : g.WellSized) :
    Marshal (ofGo g) = some (Codec.marshal g) := by
  cases g with
  | data m =>
    obtain ⟨channelID, length, data⟩ := m
    have hl : length.toNat = data.length := hg
    have hhead : (Codec.putUint32 (Codec.putUint32 (newBuffer 9 DataID) 1 channelID) 5 length).length
        = 9 := rfl
    have h0 := setArray_front []
      (Codec.putUint32 (Codec.putUint32 (newBuffer 9 DataID) 1 channelID) 5 length) (9 + data.length)
    have h9 := setArray_front
      (Codec.putUint32 (Codec.putUint32 (newBuffer 9 DataID) 1 channelID) 5 length) data data.length
    rw [hhead, List.nil_append, if_pos (Nat.le_add_right 9 _), Nat.add_sub_cancel_left,
      List.length_nil, List.nil_append] at h0
    rw [hhead, if_pos (Nat.le_refl _), Nat.sub_self, List.replicate_zero, List.append_nil] at h9
    rw [ofGo, Marshal]
    simp only [setUint32_word]
    rw [hl, h0, Option.bind_eq_bind, Option.bind_some, h9]
    rfl
  | _ =>
    simp only [ofGo, Marshal, setUint32_word]
    rfl

/-! ## Unmarshal -/

/-- A field is there for both decoders or for neither. -/
theorem getUint32_agrees (b : List UInt8) (i : Nat) :
    (Codec.uint32 b i = .error .outOfRange ∧ getUint32 b i = none) ∨
      ∃ v, Codec.uint32 b i = .ok v ∧ getUint32 b i = some v.toNat := by
  by_cases h : i + 4 ≤ b.length
  · exact .inr ⟨_, Codec.uint32_ok h, if_pos h⟩
  · refine .inl ⟨?_, if_neg h⟩
    rw [Codec.uint32, Codec.slice, if_neg (by omega)]
    rfl

/-- Both results are errors, or they are one message. -/
inductive SameResult : Except Codec.DecodeError Codec.Message → Except DecodeError Message → Prop where
  | rejected (e : Codec.DecodeError) (e' : DecodeError) : SameResult (.error e) (.error e')
  | message (g : Codec.Message) : SameResult (.ok g) (.ok (ofGo g))

theorem SameResult.field {b : List UInt8} {i : Nat} {f : UInt32 → Except Codec.DecodeError Codec.Message}
    {f' : Nat → Except DecodeError Message} (h : ∀ v, SameResult (f v) (f' v.toNat)) :
    SameResult (Codec.uint32 b i >>= f) (orRange (getUint32 b i) >>= f') := by
  rcases getUint32_agrees b i with ⟨hgo, hjs⟩ | ⟨v, hgo, hjs⟩
  · rw [hgo, hjs]
    exact .rejected _ _
  · rw [hgo, hjs]
    exact h v

/-- The two decoders read the fields of a data packet in different orders. -/
theorem Unmarshal_data (b : List UInt8) :
    SameResult (Codec.decode (DataID :: b)) (Unmarshal (DataID :: b)) := by
  have hgo : Codec.decode (DataID :: b) = (do
      let channelID ← Codec.uint32 (DataID :: b) 1
      let length ← Codec.uint32 (DataID :: b) 5
      let data ← Codec.slice (DataID :: b) 9 (DataID :: b).length
      return .data { channelID, length, data }) := rfl
  have hjs : Unmarshal (DataID :: b) = (do
      let dataLength ← orRange (getUint32 (DataID :: b) 5)
      let channelID ← orRange (getUint32 (DataID :: b) 1)
      return .data channelID dataLength ((DataID :: b).drop 9)) := rfl
  rw [hgo, hjs]
  by_cases h : 9 ≤ (DataID :: b).length
  · rw [Codec.uint32_ok (by omega), Codec.uint32_ok (by omega), Codec.slice_ok h (Nat.le_refl _),
      getUint32, getUint32, if_pos (by omega), if_pos (by omega), List.take_of_length_le (by simp)]
    exact .message _
  · rcases getUint32_agrees (DataID :: b) 5 with ⟨hgo5, hjs5⟩ | ⟨v, hgo5, hjs5⟩
    · rw [hgo5, hjs5]
      rcases getUint32_agrees (DataID :: b) 1 with ⟨hgo1, -⟩ | ⟨v, hgo1, -⟩ <;>
      · rw [hgo1]
        exact .rejected _ _
    · rw [getUint32, if_neg (by omega)] at hjs5
      cases hjs5

/-- `Unmarshal` and `decode` agree on every packet, also one that is too short. -/
theorem Unmarshal_agrees {t : UInt8} (ht : Codec.IsMsgNum t) (b : List UInt8) :
    SameResult (Codec.decode (t :: b)) (Unmarshal (t :: b)) := by
  rcases Codec.isMsgNum_iff.mp ht with rfl | rfl | rfl | rfl | rfl | rfl | rfl
  · exact .field fun senderID => .field fun windowSize => .field fun maxPacketSize => .message _
  · exact .field fun channelID => .field fun senderID => .field fun windowSize =>
      .field fun maxPacketSize => .message _
  · exact .field fun channelID => .message _
  · exact .field fun channelID => .field fun additionalBytes => .message _
  · exact Unmarshal_data b
  · exact .field fun channelID => .message _
  · exact .field fun channelID => .message _

theorem Unmarshal_marshal (g : Codec.Message) : Unmarshal (Codec.marshal g) = .ok (ofGo g) := by
  have hagree := Unmarshal_agrees (Codec.isMsgNum_num g) (Codec.fields g ++ Codec.body g)
  rw [← Codec.marshal_eq, Codec.decode_marshal] at hagree
  generalize Unmarshal (Codec.marshal g) = res at hagree
  cases hagree with
  | message g => rfl

/-! ## Reading a packet -/

variable {σ : Type}

/-- A transport whose `read` returns as many bytes as asked for, or fails. -/
def Exact (r : Reader σ) : Prop :=
  ∀ n s bs s', r n s = (.ok bs, s') → bs.length = n

theorem exact_fullReader : Exact fullReader :=
  fun _ _ _ _ h => (fullReader_ok h).2

/-- One decode by both codecs: both fail, or both return the same message and leave the
transport in the same state. -/
def Agree (res : Except Codec.DecodeError Codec.Message × σ) (res' : Except DecodeError Message × σ) :
    Prop :=
  (∃ e e', res.1 = .error e ∧ res'.1 = .error e') ∨
    ∃ g s', res = (.ok g, s') ∧ res' = (.ok (ofGo g), s')

theorem SameResult.agree {res : Except Codec.DecodeError Codec.Message}
    {res' : Except DecodeError Message} (h : SameResult res res') (s : σ) :
    Agree (res, s) (res', s) := by
  cases h with
  | rejected e e' => exact .inl ⟨e, e', rfl, rfl⟩
  | message g => exact .inr ⟨g, s, rfl, rfl⟩

/-- An unknown number fails in both codecs; only Go's makes another read first. -/
theorem decode_agrees_unknown {r : Reader σ} {s s1 : σ} {t : UInt8} (h1 : r 1 s = (.ok [t], s1))
    (ht : ¬ Codec.IsMsgNum t) : Agree (Codec.Decode r s) (decode r s) := by
  have hd : t ≠ Codec.msgChannelData := fun h => ht (h ▸ by decide)
  rw [decode_badPacket (awaitRead_ok h1) ht]
  cases h2 : r (Codec.payloadSizes t) s1 with
  | mk res s2 =>
    cases res with
    | error e =>
      rw [Codec.Decode_noPayload h1 h2]
      exact .inl ⟨_, _, rfl, rfl⟩
    | ok rest =>
      rw [Codec.Decode_plain h1 hd h2, Codec.decode_unknown ht]
      exact .inl ⟨_, _, rfl, rfl⟩

theorem decode_agrees_data {r : Reader σ} (hr : Exact r) {s s1 s2 : σ} {rest : List UInt8}
    (h1 : r 1 s = (.ok [DataID], s1)) (h2 : r 8 s1 = (.ok rest, s2)) :
    Agree (Codec.Decode r s) (decode r s) := by
  have hrest := hr 8 s1 rest s2 h2
  have hfill : fillBuffer 8 rest = rest := hrest ▸ fillBuffer_full rest
  cases h3 : r (beWord (rest.drop 4)).toNat s2 with
  | mk res s3 =>
    cases res with
    | error e =>
      obtain ⟨e', he⟩ := mustRead_error h3
      rw [Codec.Decode_noData h1 h2 (by rw [hfill]; exact h3),
        decode_noData (awaitRead_ok h1) (mustRead_ok h2) hrest he]
      exact .inl ⟨_, _, rfl, rfl⟩
    | ok data =>
      have hdata := hr _ s2 data s3 h3
      have hfill' : fillBuffer (beWord (rest.drop 4)).toNat data = data := hdata ▸ fillBuffer_full data
      rw [Codec.Decode_data h1 h2 (by rw [hfill]; exact h3), hfill, hfill',
        decode_exactData (awaitRead_ok h1) (mustRead_ok h2) hrest (mustRead_ok h3) hdata]
      exact (Unmarshal_agrees (by decide) (rest ++ data)).agree s3

/-- Over one transport both codecs read in step. -/
theorem decode_agrees {r : Reader σ} (hr : Exact r) (s : σ) :
    Agree (Codec.Decode r s) (decode r s) := by
  cases h1 : r 1 s with
  | mk res s1 =>
    cases res with
    | error e =>
      obtain ⟨e', he⟩ := awaitRead_error h1
      rw [Codec.Decode_noType h1, decode_noType he]
      exact .inl ⟨_, _, rfl, rfl⟩
    | ok head =>
      obtain ⟨t, rfl⟩ := List.length_eq_one_iff.mp (hr 1 s head s1 h1)
      by_cases ht : Codec.IsMsgNum t
      · cases h2 : r (Codec.payloadSizes t) s1 with
        | mk res s2 =>
          cases res with
          | error e =>
            obtain ⟨e', he⟩ := mustRead_error h2
            rw [Codec.Decode_noPayload h1 h2, decode_noPayload (awaitRead_ok h1) ht he]
            exact .inl ⟨_, _, rfl, rfl⟩
          | ok rest =>
            by_cases hd : t = DataID
            · subst hd
              exact decode_agrees_data hr h1 h2
            · have hrest := hr _ s1 rest s2 h2
              have hfill : fillBuffer (Codec.payloadSizes t) rest = rest :=
                hrest ▸ fillBuffer_full rest
              rw [Codec.Decode_plain h1 hd h2, hfill,
                decode_plain (awaitRead_ok h1) ht hd (mustRead_ok h2)]
              exact (Unmarshal_agrees ht rest).agree s2
      · exact decode_agrees_unknown h1 ht

/-- What `decode` returns fits. -/
theorem decode_fits {r : Reader σ} (hr : Exact r) {s s' : σ} {m : Message}
    (h : decode r s = (.ok m, s')) : m.Fits := by
  rcases decode_agrees hr s with ⟨e, e', -, he⟩ | ⟨g, s1, hgo, hjs⟩
  · rw [h] at he
    cases he
  · rw [h] at hjs
    cases hjs
    rcases Codec.Decode_total r s with ⟨e, he, -⟩ | ⟨g', hg', hw⟩
    · rw [hgo] at he
      cases he
    · rw [hgo] at hg'
      cases hg'
      exact fits_ofGo hw

/-- **Both codecs implement one wire format.** `Marshal` writes the same bytes for every
message that fits; and where the transport reads exactly or fails, both decoders fail, or
both return the same message, which stood in front of what is left of the stream. -/
theorem codecs_agree :
    (∀ m : Message, m.Fits → ofGo (toGo m) = m ∧ Marshal m = some (Codec.marshal (toGo m))) ∧
    (∀ (σ : Type) (r : Reader σ), Exact r → ∀ s, Agree (Codec.Decode r s) (decode r s)) ∧
    (∀ stream : List UInt8,
      (∃ e e', (Codec.Decode fullReader stream).1 = .error e ∧
        (decode fullReader stream).1 = .error e') ∨
      ∃ g rest, stream = Codec.marshal g ++ rest ∧ Codec.Decode fullReader stream = (.ok g, rest) ∧
        decode fullReader stream = (.ok (ofGo g), rest)) := by
  refine ⟨fun m hm => ?_, fun σ r hr s => decode_agrees hr s, fun stream => ?_⟩
  · have hback := ofGo_toGo hm
    have hbytes := Marshal_ofGo (wellSized_toGo hm)
    rw [hback] at hbytes
    exact ⟨hback, hbytes⟩
  · rcases decode_agrees exact_fullReader stream with h | ⟨g, rest, hgo, hjs⟩
    · exact .inl h
    · exact .inr ⟨g, rest, (Codec.Decode_ok hgo).1, hgo, hjs⟩

/-- A message to both codecs, and a packet that both refuse. -/
theorem codecs_agree_run :
    Marshal (.data 7 2 [1, 2]) = some (Codec.marshal (toGo (.data 7 2 [1, 2]))) ∧
      Agree (Codec.Decode fullReader [104, 0, 0, 0]) (decode fullReader [104, 0, 0, 0]) := by
  obtain ⟨bytes, transports, -⟩ := codecs_agree
  exact ⟨(bytes (.data 7 2 [1, 2]) (by decide)).2,
    transports _ fullReader exact_fullReader [104, 0, 0, 0]⟩

end Qtalk.Js
