import Qtalk.Codec.RoundTrip

/-!
# Decoding from any reader

Whatever a reader reports, `readPacket` hands `decode` a packet of the length its number
and length field ask for. So `Decode` never slices out of range, and the messages it
returns are well sized, also where their bytes are made up.
-/

namespace Qtalk.Codec
open Qtalk.Lib

/-- A packet as `readPacket` lays it out. -/
structure Layout (packet : List UInt8) : Prop where
  exists_parts : ∃ t rest data, packet = t :: (rest ++ data) ∧ rest.length = payloadSizes t ∧
    (t ≠ msgChannelData → data = []) ∧
    (t = msgChannelData → data.length = (beWord (rest.drop 4)).toNat)

variable {σ : Type}

theorem readPacket_layout (r : Reader σ) (s : σ) :
    (∃ e, (readPacket r s).1 = .error (.read e)) ∨
      ∃ packet, (readPacket r s).1 = .ok packet ∧ Layout packet := by
  rw [readPacket]
  cases h1 : r 1 s with
  | mk res s1 =>
    cases res with
    | error e => exact .inl ⟨e, rfl⟩
    | ok bs =>
      obtain ⟨t, ht⟩ := List.length_eq_one_iff.mp (fillBuffer_length 1 bs)
      simp only [ht, List.headD_cons]
      cases h2 : r (payloadSizes t) s1 with
      | mk res s2 =>
        cases res with
        | error e => exact .inl ⟨e, rfl⟩
        | ok bs =>
          have hrest := fillBuffer_length (payloadSizes t) bs
          simp only
          split
          · next hdata =>
            subst hdata
            cases h3 : r (beWord ((fillBuffer (payloadSizes msgChannelData) bs).drop 4)).toNat s2 with
            | mk res s3 =>
              cases res with
              | error e => exact .inl ⟨e, congrArg Prod.fst (readData_error hrest h3)⟩
              | ok ds =>
                rw [readData_ok hrest h3]
                exact .inr ⟨_, rfl, _, _, _, rfl, hrest, absurd rfl, fun _ => fillBuffer_length _ _⟩
          · next hdata =>
            exact .inr ⟨_, rfl, t, _, [], by simp, hrest, fun _ => rfl, fun h => absurd h hdata⟩

theorem decode_of_layout {packet : List UInt8} (h : Layout packet) :
    (∃ t, decode packet = .error (.unexpectedType t)) ∨
      ∃ m : Message, decode packet = .ok m ∧ m.WellSized := by
  obtain ⟨t, rest, data, rfl, hrest, hnone, hdata⟩ := h.exists_parts
  by_cases ht : IsMsgNum t
  · obtain ⟨m, hm, hn, hf, hb⟩ := decode_layout _ _ ht hrest hnone
    refine .inr ⟨m, hm, wellSized_of_body fun hd => ?_⟩
    rw [hb, hf]
    exact hdata (hn.symm.trans hd)
  · exact .inl ⟨t, decode_unknown ht _⟩

/-- `Decode` fails with an error of the reader or an unknown number, or returns a well
sized message. -/
theorem Decode_total (r : Reader σ) (s : σ) :
    (∃ e, (Decode r s).1 = .error e ∧ e ≠ .outOfRange) ∨
      ∃ m : Message, (Decode r s).1 = .ok m ∧ m.WellSized := by
  have hd : (Decode r s).1 = (readPacket r s).1 >>= decode := by
    rw [Decode]
    rcases readPacket r s with ⟨res, s'⟩
    cases res <;> rfl
  rw [hd]
  rcases readPacket_layout r s with ⟨e, he⟩ | ⟨packet, hp, hl⟩
  · rw [he]
    exact .inl ⟨_, rfl, by simp⟩
  · rw [hp]
    rcases decode_of_layout hl with ⟨t, ht⟩ | ⟨m, hm, hw⟩
    · exact .inl ⟨_, ht, by simp⟩
    · exact .inr ⟨m, hm, hw⟩

end Qtalk.Codec
