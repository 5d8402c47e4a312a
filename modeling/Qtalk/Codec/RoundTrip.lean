import Qtalk.Codec.Packet

/-!
# The wire format is self-delimiting

`Framed` says what one `Decode` owes to a stream: a message exactly when the stream
starts with its encoding, an error at the end of the stream, at a byte that is no
message number and inside a packet that is cut off. With a reader that fills its
buffers `Decode` does that (`Decode_full`), so `Marshal` and repeated `Decode` are
inverse to each other (`wire_bijection`).
-/

namespace Qtalk.Codec
open Qtalk.Lib

/-- No complete encoding of a message stands at the front of the stream. -/
def Incomplete (s : List UInt8) : Prop :=
  ∀ m rest, m.WellSized → s ≠ marshal m ++ rest

/-- What one `Decode` reports on a stream, and the stream it leaves. -/
inductive Framed : List UInt8 → Except DecodeError Message × List UInt8 → Prop where
  | done : Framed [] (.error (.read .eof), [])
  | unknown {t : UInt8} (s : List UInt8) (ht : ¬ IsMsgNum t) :
      Framed (t :: s) (.error (.unexpectedType t), s)
  | message {m : Message} (s : List UInt8) (hm : m.WellSized) : Framed (marshal m ++ s) (.ok m, s)
  | truncated {t : UInt8} {s : List UInt8} (e : ReadError) (ht : IsMsgNum t)
      (h : Incomplete (t :: s)) : Framed (t :: s) (.error (.read e), [])

theorem body_eq_nil {m : Message} (h : m.num ≠ msgChannelData) : body m = [] := by
  cases m with
  | data m => exact absurd rfl h
  | _ => rfl

/-- The length field of a well-sized message counts its body. -/
theorem body_length {m : Message} (hm : m.WellSized) (h : m.num = msgChannelData) :
    (body m).length = (beWord ((fields m).drop 4)).toNat := by
  cases m with
  | data m => rw [beWord_fields_data]; exact hm.symm
  | _ => cases h

/-- A message whose body has the length its fields announce is well sized. -/
theorem wellSized_of_body {m : Message}
    (h : m.num = msgChannelData → (body m).length = (beWord ((fields m).drop 4)).toNat) :
    m.WellSized := by
  cases m with
  | data m =>
    have hl := h rfl
    rw [beWord_fields_data] at hl
    exact hl.symm
  | _ => trivial

/-- A stream that ends inside the payload holds no complete packet. -/
theorem incomplete_of_payload {t : UInt8} {s : List UInt8} (h : s.length < payloadSizes t) :
    Incomplete (t :: s) := by
  intro m rest _ he
  rw [marshal_eq, List.cons_append, List.cons.injEq] at he
  obtain ⟨rfl, rfl⟩ := he
  have := fields_length m
  simp only [List.length_append] at h
  omega

/-- A stream that ends inside the data holds no complete packet. -/
theorem incomplete_of_data {rest s : List UInt8} (hrest : rest.length = 8)
    (h : s.length < (beWord (rest.drop 4)).toNat) :
    Incomplete (msgChannelData :: (rest ++ s)) := by
  intro m tail hm he
  rw [marshal_eq, List.cons_append, List.cons.injEq] at he
  obtain ⟨hn, he⟩ := he
  have hf := fields_length m
  rw [← hn] at hf
  have hsplit := List.append_inj (by rw [List.append_assoc] at he; exact he) (hrest.trans hf.symm)
  obtain ⟨rfl, rfl⟩ := hsplit
  have hb := body_length hm hn.symm
  simp only [List.length_append] at h
  omega

/-- With buffers always filled, `Decode` does what the format asks for. -/
theorem Decode_full (s : List UInt8) : Framed s (Decode fullReader s) := by
  cases s with
  | nil =>
    rw [Decode_noType (fullReader_nil Nat.one_pos)]
    exact .done
  | cons t s =>
    have h1 : fullReader 1 (t :: s) = (.ok [t], s) := fullReader_cons t s
    by_cases ht : IsMsgNum t
    · by_cases hp : s.length < payloadSizes t
      · obtain ⟨e, h2⟩ := fullReader_short hp
        rw [Decode_noPayload h1 h2]
        exact .truncated e ht (incomplete_of_payload hp)
      · obtain ⟨rest, s2, rfl, hrest⟩ : ∃ rest s2, s = rest ++ s2 ∧ rest.length = payloadSizes t :=
          ⟨s.take (payloadSizes t), s.drop (payloadSizes t), (List.take_append_drop _ _).symm,
            by simp; omega⟩
        have h2 : fullReader (payloadSizes t) (rest ++ s2) = (.ok rest, s2) :=
          hrest ▸ fullReader_append rest s2
        have hfill : fillBuffer (payloadSizes t) rest = rest := hrest ▸ fillBuffer_full rest
        by_cases hd : t = msgChannelData
        · subst hd
          have h8 : payloadSizes msgChannelData = 8 := rfl
          rw [h8] at h2 hfill hrest
          by_cases hN : s2.length < (beWord (rest.drop 4)).toNat
          · obtain ⟨e, h3⟩ := fullReader_short hN
            rw [Decode_noData h1 h2 (by rw [hfill]; exact h3)]
            exact .truncated e ht (incomplete_of_data hrest hN)
          · obtain ⟨data, s3, rfl, hdata⟩ :
                ∃ data s3, s2 = data ++ s3 ∧ data.length = (beWord (rest.drop 4)).toNat :=
              ⟨_, _, (List.take_append_drop (beWord (rest.drop 4)).toNat s2).symm, by simp; omega⟩
            have h3 : fullReader (beWord (rest.drop 4)).toNat (data ++ s3) = (.ok data, s3) :=
              hdata ▸ fullReader_append data s3
            obtain ⟨m, hm, hn, hf, hb⟩ := decode_layout rest data ht hrest (absurd rfl)
            rw [Decode_data h1 h2 (by rw [hfill]; exact h3), hfill, ← hdata, fillBuffer_full, hm]
            have heq : msgChannelData :: (rest ++ (data ++ s3)) = marshal m ++ s3 := by
              rw [marshal_eq, hn, hf, hb]; simp
            rw [heq]
            exact .message s3 (wellSized_of_body fun _ => by rw [hf, hb, hdata])
        · obtain ⟨m, hm, hn, hf, hb⟩ := decode_layout rest [] ht hrest (fun _ => rfl)
          rw [List.append_nil] at hm
          rw [Decode_plain h1 hd h2, hfill, hm]
          have heq : t :: (rest ++ s2) = marshal m ++ s2 := by
            rw [marshal_eq, hn, hf, hb]; simp
          rw [heq]
          exact .message s2 (wellSized_of_body fun h => absurd (hn.symm.trans h) hd)
    · have h0 : payloadSizes t = 0 := payloadSizes_eq_zero.mpr ht
      have hd : t ≠ msgChannelData := fun h => ht (h ▸ by decide)
      have h2 : fullReader (payloadSizes t) s = (.ok [], s) := h0 ▸ fullReader_append [] s
      rw [Decode_plain h1 hd h2, decode_unknown ht]
      exact .unknown s ht

/-- No encoding is a proper prefix of another: a stream starts with at most one. -/
theorem marshal_append_inj {m m' : Message} {s s' : List UInt8} (hm : m.WellSized)
    (hm' : m'.WellSized) (h : marshal m ++ s = marshal m' ++ s') : m = m' ∧ s = s' := by
  rw [marshal_eq, marshal_eq, List.cons_append, List.cons_append, List.cons.injEq,
    List.append_assoc, List.append_assoc] at h
  obtain ⟨hn, h⟩ := h
  have hlen : (fields m).length = (fields m').length := by
    rw [fields_length, fields_length, hn]
  obtain ⟨hf, h⟩ := List.append_inj h hlen
  have hbody : (body m).length = (body m').length := by
    by_cases hd : m.num = msgChannelData
    · rw [body_length hm hd, body_length hm' (hn ▸ hd), hf]
    · rw [body_eq_nil hd, body_eq_nil (hn ▸ hd)]
  obtain ⟨hb, hs⟩ := List.append_inj h hbody
  exact ⟨Message.ext_wire hn hf hb, hs⟩

/-- `Decode` reads the encoding of a message off the front of any stream. -/
theorem Decode_marshal {m : Message} (hm : m.WellSized) : Reads (Decode fullReader) marshal m := by
  intro rest
  have h := Decode_full (marshal m ++ rest)
  generalize hs : marshal m ++ rest = s at h
  generalize Decode fullReader s = res at h
  cases h with
  | done =>
    rw [marshal_eq] at hs
    cases hs
  | unknown s ht =>
    rw [marshal_eq, List.cons_append, List.cons.injEq] at hs
    exact absurd (hs.1 ▸ isMsgNum_num m) ht
  | message s' hm' =>
    obtain ⟨rfl, rfl⟩ := marshal_append_inj hm hm' hs
    rfl
  | truncated e ht h => exact absurd hs.symm (h m rest hm)

/-- A message returned stood at the front of the stream, and nothing else was taken. -/
theorem Decode_ok {s rest : List UInt8} {m : Message} (h : Decode fullReader s = (.ok m, rest)) :
    s = marshal m ++ rest ∧ m.WellSized := by
  have hf := Decode_full s
  rw [h] at hf
  cases hf with
  | message s hm => exact ⟨rfl, hm⟩

theorem Decode_consumes : Consumes (Decode fullReader) marshal :=
  fun _ _ _ h => (Decode_ok h).1

/-- Where no complete packet stands, `Decode` reports an error of the reader or of the
message number. -/
theorem Decode_incomplete {s : List UInt8} (h : Incomplete s) :
    ∃ e, (Decode fullReader s).1 = .error e ∧ e ≠ .outOfRange := by
  have hf := Decode_full s
  generalize Decode fullReader s = res at hf
  cases hf with
  | done => exact ⟨_, rfl, by simp⟩
  | unknown s ht => exact ⟨_, rfl, by simp⟩
  | message s hm => exact absurd rfl (h _ s hm)
  | truncated e ht h => exact ⟨_, rfl, by simp⟩

theorem wellSized_of_decodes {n : Nat} {s rest : List UInt8} {ms : List Message}
    (h : decodes (Decode fullReader) n s = (ms.map .ok, rest)) : ∀ m ∈ ms, m.WellSized := by
  induction n generalizing s ms with
  | zero =>
    cases ms with
    | nil => simp
    | cons m ms => simp at h
  | succ n ih =>
    rw [decodes_succ, Prod.mk.injEq] at h
    obtain ⟨hr, hs⟩ := h
    cases ms with
    | nil => simp
    | cons m ms =>
      rw [List.map_cons, List.cons.injEq] at hr
      have hd : Decode fullReader s = (.ok m, (Decode fullReader s).2) := Prod.ext hr.1 rfl
      have first := (Decode_ok hd).2
      exact List.forall_mem_cons.mpr ⟨first, ih (Prod.ext hr.2 hs)⟩

/-- **The wire format.** Repeated `Decode` undoes the concatenation of `Marshal`
outputs and then reports the end of the stream; on any stream the messages it returns
account for exactly the bytes consumed; a byte that is no message number, and a packet
that is not complete, give an error. -/
theorem wire_bijection :
    (∀ ms : List Message, (∀ m ∈ ms, m.WellSized) →
      decodes (Decode fullReader) (ms.length + 1) (ms.flatMap marshal)
        = (ms.map .ok ++ [.error (.read .eof)], [])) ∧
    (∀ n s rest (ms : List Message),
      decodes (Decode fullReader) n s = (ms.map .ok, rest) →
        s = ms.flatMap marshal ++ rest ∧ ∀ m ∈ ms, m.WellSized) ∧
    (∀ t s, ¬ IsMsgNum t → (Decode fullReader (t :: s)).1 = .error (.unexpectedType t)) ∧
    (∀ s, Incomplete s → ∃ e, (Decode fullReader s).1 = .error e ∧ e ≠ .outOfRange) := by
  refine ⟨fun ms hms => ?_, fun n s rest ms h => ?_, fun t s ht => ?_, fun s => Decode_incomplete⟩
  · have all := decodes_flatMap (fun m hm => Decode_marshal (hms m hm)) []
    rw [List.append_nil] at all
    rw [decodes_add, all]
    rfl
  · exact ⟨decodes_consumed Decode_consumes h, wellSized_of_decodes h⟩
  · have hf := Decode_full (t :: s)
    generalize hs : t :: s = s' at hf
    generalize Decode fullReader s' = res at hf
    cases hf with
    | done => cases hs
    | unknown s ht => cases hs; rfl
    | @message m s hm =>
      rw [marshal_eq, List.cons_append, List.cons.injEq] at hs
      exact absurd (hs.1 ▸ isMsgNum_num m) ht
    | truncated e ht' h => cases hs; exact absurd ht' ht

/-- Two messages, one with empty data, there and back; a cut packet and a wrong number. -/
theorem wire_bijection_run :
    decodes (Decode fullReader) 3 ([.data ⟨7, 0, []⟩, .close ⟨7⟩].flatMap marshal)
        = ([.ok (.data ⟨7, 0, []⟩), .ok (.close ⟨7⟩), .error (.read .eof)], []) ∧
      [106, 0, 0, 0, 7] = [Message.close ⟨7⟩].flatMap marshal ++ [] ∧
      (Decode fullReader [99, 0]).1 = .error (.unexpectedType 99) ∧
      ∃ e, (Decode fullReader [106, 0]).1 = .error e ∧ e ≠ .outOfRange := by
  obtain ⟨thereAndBack, consumed, unknown, incomplete⟩ := wire_bijection
  refine ⟨thereAndBack [.data ⟨7, 0, []⟩, .close ⟨7⟩] (by decide), ?_, unknown 99 [0] (by decide),
    incomplete _ (incomplete_of_payload (by decide))⟩
  exact (consumed 1 [106, 0, 0, 0, 7] [] [.close ⟨7⟩] (by rfl)).1

end Qtalk.Codec
