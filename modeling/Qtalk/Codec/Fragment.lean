import Qtalk.Codec.RoundTrip

/-!
# Decoding a stream that the transport cuts

`readPacket` trusts every `Read` to fill its buffer. `Faithful` is what a decoder owes
to a reader that may answer with fewer bytes; `Whole` says that each packet's payload
and data are ready in one piece when they are asked for. `Decode_faithful_iff`: the
decoder is faithful on exactly the whole streams. One direction is a simulation of the
full reader. For the other, a packet that lost bytes to a short read and still decodes
to the right message has lost zeros only (`late_zeros`); the decoder then lags behind
by zeros, which it reports as message type 0 until the streams part (`lag_differs`).
-/

namespace Qtalk.Codec
open Qtalk.Lib

/-- Decoding the cut stream: the results of repeated `Decode` are those of a reader that
fills its buffers; a message is returned only where its complete encoding stands; a
position without a complete packet gives an error. -/
structure Faithful (c : Cut) : Prop where
  results : ∀ n, (decodes (Decode cutReader) n c).1 = (decodes (Decode fullReader) n c.stream).1
  complete : ∀ n m c', Decode cutReader (decodes (Decode cutReader) n c).2 = (.ok m, c') →
    m.WellSized ∧ (decodes (Decode cutReader) n c).2.stream = marshal m ++ c'.stream
  truncated : ∀ n, Incomplete (decodes (Decode cutReader) n c).2.stream →
    ∃ e, (Decode cutReader (decodes (Decode cutReader) n c).2).1 = .error e

/-- Every packet of the stream has its payload, and then its data, ready in one piece.
Each `Read` that gets bytes uses up one entry of the schedule: the message number the
first, the payload the second, non-empty data the third. -/
inductive Whole : List UInt8 → (Nat → Nat) → Prop where
  | done (cuts : Nat → Nat) : Whole [] cuts
  | unknown {t : UInt8} {s : List UInt8} {cuts : Nat → Nat} (ht : ¬ IsMsgNum t)
      (h : Whole s fun i => cuts (i + 1)) : Whole (t :: s) cuts
  /-- the stream ends behind a message number -/
  | bare {t : UInt8} (cuts : Nat → Nat) (ht : IsMsgNum t) : Whole [t] cuts
  | plain {t : UInt8} {rest s : List UInt8} {cuts : Nat → Nat} (ht : IsMsgNum t)
      (hd : t ≠ msgChannelData) (hrest : rest.length = payloadSizes t)
      (hc : payloadSizes t ≤ cuts 1) (h : Whole s fun i => cuts (i + 2)) :
      Whole (t :: (rest ++ s)) cuts
  /-- the stream ends where data would start -/
  | headed {rest : List UInt8} {cuts : Nat → Nat} (hrest : rest.length = 8) (hc : 8 ≤ cuts 1)
      (hN : 0 < (beWord (rest.drop 4)).toNat) : Whole (msgChannelData :: rest) cuts
  | empty {rest s : List UInt8} {cuts : Nat → Nat} (hrest : rest.length = 8) (hc : 8 ≤ cuts 1)
      (hN : (beWord (rest.drop 4)).toNat = 0) (h : Whole s fun i => cuts (i + 2)) :
      Whole (msgChannelData :: (rest ++ s)) cuts
  | data {rest d s : List UInt8} {cuts : Nat → Nat} (hrest : rest.length = 8) (hc : 8 ≤ cuts 1)
      (hd : d.length = (beWord (rest.drop 4)).toNat) (hN : 0 < d.length)
      (hc' : d.length ≤ max 1 (cuts 2)) (h : Whole s fun i => cuts (i + 3)) :
      Whole (msgChannelData :: (rest ++ (d ++ s))) cuts

/-! ## Reads of the cut stream -/

theorem cutReader_type (t : UInt8) (s : List UInt8) (cuts : Nat → Nat) :
    cutReader 1 ⟨t :: s, cuts⟩ = (.ok [t], ⟨s, fun i => cuts (i + 1)⟩) := by
  have h1 : (Cut.mk (t :: s) cuts).count 1 = 1 := by
    simp only [Cut.count, List.length_cons]
    omega
  rw [cutReader_pos (by decide) (by simp), h1]
  rfl

/-- A request that is ready in one piece is answered in full. -/
theorem cutReader_whole {n : Nat} {a s : List UInt8} {cuts : Nat → Nat} (hn : 0 < n)
    (ha : a.length = n) (hc : n ≤ max 1 (cuts 0)) :
    cutReader n ⟨a ++ s, cuts⟩ = (.ok a, ⟨s, fun i => cuts (i + 1)⟩) := by
  have hne : a ++ s ≠ [] := by
    intro h
    rw [List.append_eq_nil_iff] at h
    rw [h.1, List.length_nil] at ha
    omega
  have hcount : (Cut.mk (a ++ s) cuts).count n = n :=
    (Cut.count_eq hn (by simp [ha])).mpr hc
  rw [cutReader_pos hn hne, hcount, Cut.take, ← ha, List.take_left, List.drop_left]

/-- A packet that arrives in one piece is decoded as by the full reader. -/
theorem Whole.step {s : List UInt8} {cuts : Nat → Nat} (h : Whole s cuts) :
    ∃ res s' cuts', Decode cutReader ⟨s, cuts⟩ = (res, ⟨s', cuts'⟩) ∧
      Decode fullReader s = (res, s') ∧ Whole s' cuts' := by
  cases h with
  | done cuts =>
    refine ⟨_, [], cuts, ?_, Decode_noType (fullReader_nil Nat.one_pos), .done cuts⟩
    exact Decode_noType (cutReader_nil Nat.one_pos rfl)
  | @unknown t s cuts ht h =>
    have h0 : payloadSizes t = 0 := payloadSizes_eq_zero.mpr ht
    have hd : t ≠ msgChannelData := fun h => ht (h ▸ by decide)
    refine ⟨_, s, _, Decode_plain (cutReader_type t s cuts) hd (cutReader_none _ h0), ?_, h⟩
    exact Decode_plain (fullReader_cons t s) hd (by rw [h0]; exact fullReader_append [] s)
  | @bare t cuts ht =>
    have hp : 0 < payloadSizes t := Nat.pos_of_ne_zero fun h => payloadSizes_eq_zero.mp h ht
    refine ⟨_, [], _, Decode_noPayload (cutReader_type t [] cuts) (cutReader_nil hp rfl), ?_, .done _⟩
    exact Decode_noPayload (fullReader_cons t []) (fullReader_nil hp)
  | @plain t rest s cuts ht hd hrest hc h =>
    have hp : 0 < payloadSizes t := Nat.pos_of_ne_zero fun h => payloadSizes_eq_zero.mp h ht
    refine ⟨_, s, _, Decode_plain (cutReader_type t (rest ++ s) cuts) hd
      (cutReader_whole hp hrest (Nat.le_trans hc (Nat.le_max_right 1 _))), ?_, h⟩
    exact Decode_plain (fullReader_cons t (rest ++ s)) hd (hrest ▸ fullReader_append rest s)
  | @headed rest cuts hrest hc hN =>
    have hfill : fillBuffer 8 rest = rest := hrest ▸ fillBuffer_full rest
    have hcut : cutReader 8 ⟨rest ++ [], fun i => cuts (i + 1)⟩ = _ :=
      cutReader_whole (by decide) hrest (Nat.le_trans hc (Nat.le_max_right 1 _))
    rw [List.append_nil] at hcut
    have hfull : fullReader 8 rest = (.ok rest, []) := by
      have := fullReader_append rest []
      rwa [hrest, List.append_nil] at this
    refine ⟨_, [], _, Decode_noData (cutReader_type msgChannelData rest cuts) hcut
      (by rw [hfill]; exact cutReader_nil hN rfl), ?_, .done _⟩
    exact Decode_noData (fullReader_cons msgChannelData rest) hfull
      (by rw [hfill]; exact fullReader_nil hN)
  | @empty rest s cuts hrest hc hN h =>
    have hfill : fillBuffer 8 rest = rest := hrest ▸ fillBuffer_full rest
    refine ⟨_, s, _, Decode_data (cutReader_type msgChannelData (rest ++ s) cuts)
      (cutReader_whole (by decide) hrest (Nat.le_trans hc (Nat.le_max_right 1 _)))
      (cutReader_none _ (by rw [hfill, hN])), ?_, h⟩
    exact Decode_data (fullReader_cons msgChannelData (rest ++ s))
      (hrest ▸ fullReader_append rest s) (by rw [hfill, hN]; exact fullReader_append [] s)
  | @data rest d s cuts hrest hc hd hN hc' h =>
    have hfill : fillBuffer 8 rest = rest := hrest ▸ fillBuffer_full rest
    refine ⟨_, s, _, Decode_data (cutReader_type msgChannelData (rest ++ (d ++ s)) cuts)
      (cutReader_whole (by decide) hrest (Nat.le_trans hc (Nat.le_max_right 1 _)))
      (by rw [hfill, ← hd]; exact cutReader_whole hN rfl hc'), ?_, h⟩
    exact Decode_data (fullReader_cons msgChannelData (rest ++ (d ++ s)))
      (hrest ▸ fullReader_append rest (d ++ s)) (by rw [hfill, ← hd]; exact fullReader_append d s)

/-- The cut run and the full run stay together on a whole stream. -/
theorem Whole.run {s : List UInt8} {cuts : Nat → Nat} (h : Whole s cuts) (n : Nat) :
    ∃ rs s' cuts', decodes (Decode cutReader) n ⟨s, cuts⟩ = (rs, ⟨s', cuts'⟩) ∧
      decodes (Decode fullReader) n s = (rs, s') ∧ Whole s' cuts' := by
  induction n generalizing s cuts with
  | zero => exact ⟨[], s, cuts, rfl, rfl, h⟩
  | succ n ih =>
    obtain ⟨res, s1, cuts1, hcut, hfull, h1⟩ := h.step
    obtain ⟨rs, s2, cuts2, hcuts, hfulls, h2⟩ := ih h1
    refine ⟨res :: rs, s2, cuts2, ?_, ?_, h2⟩
    · rw [decodes_succ, hcut, hcuts]
    · rw [decodes_succ, hfull, hfulls]

theorem Whole.faithful {s : List UInt8} {cuts : Nat → Nat} (h : Whole s cuts) :
    Faithful ⟨s, cuts⟩ where
  results n := by
    obtain ⟨rs, s', cuts', hcut, hfull, -⟩ := h.run n
    rw [hcut, hfull]
  complete n m c' hm := by
    obtain ⟨rs, s', cuts', hcut, -, hw⟩ := h.run n
    obtain ⟨res, s2, cuts2, hcut2, hfull2, -⟩ := hw.step
    rw [hcut] at hm ⊢
    rw [hcut2, Prod.mk.injEq] at hm
    obtain ⟨rfl, rfl⟩ := hm
    obtain ⟨hs, hsize⟩ := Decode_ok hfull2
    exact ⟨hsize, hs⟩
  truncated n hi := by
    obtain ⟨rs, s', cuts', hcut, -, hw⟩ := h.run n
    obtain ⟨res, s2, cuts2, hcut2, hfull2, -⟩ := hw.step
    rw [hcut] at hi ⊢
    obtain ⟨e, he, -⟩ := Decode_incomplete hi
    exact ⟨e, by rw [hcut2]; rw [hfull2] at he; exact he⟩

/-! ## A short read shows -/

/-- Repeated `Decode` of a cut stream and of a stream give the same results. -/
def Agree (c : Cut) (s : List UInt8) : Prop :=
  ∀ n, (decodes (Decode cutReader) n c).1 = (decodes (Decode fullReader) n s).1

/-- A decoder that lags behind by zeros reports them as message type 0, and parts from
the other one at the latest where the stream ends. -/
theorem lag_differs {k : Nat} (hk : 0 < k) (s : List UInt8) (cuts : Nat → Nat) :
    ¬ Agree ⟨List.replicate k 0 ++ s, cuts⟩ s := by
  obtain ⟨k, rfl⟩ := Nat.exists_eq_succ_of_ne_zero (Nat.ne_of_gt hk)
  have h0 : payloadSizes 0 = 0 := by decide
  have lag : ∀ s cuts, Decode cutReader ⟨List.replicate (k + 1) 0 ++ s, cuts⟩
      = (.error (.unexpectedType 0), ⟨List.replicate k 0 ++ s, fun i => cuts (i + 1)⟩) := by
    intro s cuts
    rw [List.replicate_succ, List.cons_append]
    rw [Decode_plain (cutReader_type 0 _ cuts) (by decide) (cutReader_none _ h0),
      decode_unknown (by decide)]
  induction s generalizing cuts with
  | nil =>
    intro h
    have hfirst := (decodes_agree h).1
    rw [lag, Decode_noType (fullReader_nil Nat.one_pos)] at hfirst
    cases hfirst
  | cons t s ih =>
    intro h
    obtain ⟨hfirst, hrest⟩ := decodes_agree h
    rw [lag] at hfirst hrest
    have hf := Decode_full (t :: s)
    generalize hs : t :: s = s' at hf hfirst hrest
    generalize Decode fullReader s' = res at hf hfirst hrest
    cases hf with
    | done => cases hs
    | unknown s1 ht =>
      obtain ⟨rfl, rfl⟩ := List.cons.inj hs
      cases hfirst
      refine ih (fun i => cuts (i + 1)) fun n => ?_
      have := hrest n
      rwa [show List.replicate k (0 : UInt8) ++ 0 :: s = List.replicate (k + 1) 0 ++ s by
        rw [List.replicate_succ', List.append_assoc]; rfl] at this
    | message s1 hm => cases hfirst
    | truncated e ht h => cases hfirst

theorem payloadSizes_ge {t : UInt8} (ht : IsMsgNum t) : 4 ≤ payloadSizes t := by
  rcases isMsgNum_iff.mp ht with rfl | rfl | rfl | rfl | rfl | rfl | rfl <;> decide

/-- The first result of the two runs, when the cut one is a message. -/
theorem Agree.message {t : UInt8} {s : List UInt8} {c c' : Cut} {m : Message}
    (h : Agree c (t :: s)) (hdec : Decode cutReader c = (.ok m, c')) :
    ∃ s', s = fields m ++ (body m ++ s') ∧ Agree c' s' := by
  obtain ⟨hfirst, hrest⟩ := decodes_agree h
  rw [hdec] at hfirst hrest
  have hfull : Decode fullReader (t :: s) = (.ok m, (Decode fullReader (t :: s)).2) :=
    Prod.ext hfirst.symm rfl
  obtain ⟨hs, -⟩ := Decode_ok hfull
  rw [marshal_eq, List.cons_append, List.cons.injEq, List.append_assoc] at hs
  exact ⟨_, hs.2, hrest⟩

/-- The payload read of a cut stream: how many bytes come, and what the buffer holds. -/
theorem payload_read {n : Nat} {s : List UInt8} (cuts : Nat → Nat) (hn : 2 ≤ n) (hs : s ≠ []) :
    ∃ k, k ≤ n ∧ k ≤ s.length ∧ (k = n → n ≤ cuts 0) ∧
      cutReader n ⟨s, cuts⟩ = (.ok (s.take k), ⟨s.drop k, fun i => cuts (i + 1)⟩) ∧
      fillBuffer n (s.take k) = s.take k ++ List.replicate (n - k) 0 := by
  have hkn : (Cut.mk s cuts).count n ≤ n := Cut.count_le (by omega)
  have hkl : (Cut.mk s cuts).count n ≤ s.length := Cut.count_le_length (c := ⟨s, cuts⟩) hs
  refine ⟨_, hkn, hkl, fun h => ?_, cutReader_pos (by omega) hs, fillBuffer_cut hkn hkl⟩
  have := (Cut.count_eq (c := ⟨s, cuts⟩) (by omega) (by rw [← h]; exact hkl)).mp h
  simp only at this
  omega

section Step

variable {s : List UInt8} {cuts : Nat → Nat}
  (ih : ∀ s' cuts', s'.length ≤ s.length → Agree ⟨s', cuts'⟩ s' → Whole s' cuts')

include ih

/-- Where a packet other than data decodes alike, its payload came in one piece. -/
theorem Agree.plain {t : UInt8} (h : Agree ⟨t :: s, cuts⟩ (t :: s)) (ht : IsMsgNum t)
    (hd : t ≠ msgChannelData) (hs : s ≠ []) : Whole (t :: s) cuts := by
  have hp := payloadSizes_ge ht
  obtain ⟨k, hkn, hkl, hready, h2, hfill⟩ :=
    payload_read (n := payloadSizes t) (fun i => cuts (i + 1)) (by omega) hs
  obtain ⟨m, hm, -, hf, hb⟩ := decode_layout (fillBuffer (payloadSizes t) (s.take k)) [] ht
    (fillBuffer_length _ _) (fun _ => rfl)
  rw [List.append_nil] at hm
  obtain ⟨s', hs', hrest⟩ := h.message (by rw [Decode_plain (cutReader_type t s cuts) hd h2, hm])
  rw [hf, hb, hfill, List.nil_append, List.append_assoc] at hs'
  rw [drop_eq_of_take hs'] at hrest
  rcases Nat.lt_or_ge k (payloadSizes t) with hlt | hge
  · -- the payload was cut: the cut run lags behind by the bytes it missed
    exact absurd hrest (lag_differs (Nat.sub_pos_of_lt hlt) s' _)
  · obtain rfl : k = payloadSizes t := Nat.le_antisymm hkn hge
    rw [Nat.sub_self, List.replicate_zero, List.nil_append] at hs' hrest
    rw [hs']
    refine .plain ht hd (by simp [hkl]) (hready rfl) (ih s' _ ?_ hrest)
    rw [hs', List.length_append]
    omega

/-- Where a data packet decodes alike, payload and data came in one piece, or the stream
ends in front of the data. -/
theorem Agree.data (h : Agree ⟨msgChannelData :: s, cuts⟩ (msgChannelData :: s)) (hs : s ≠ []) :
    Whole (msgChannelData :: s) cuts := by
  have ht : IsMsgNum msgChannelData := by decide
  obtain ⟨k, hkn, hkl, hready, h2, hfill⟩ :=
    payload_read (n := 8) (fun i => cuts (i + 1)) (by omega) hs
  obtain ⟨N, hN⟩ : ∃ N, (beWord ((fillBuffer 8 (s.take k)).drop 4)).toNat = N := ⟨_, rfl⟩
  have h1 := cutReader_type msgChannelData s cuts
  rcases Nat.eq_zero_or_pos N with hN0 | hNpos
  · -- no data: as for the other kinds
    obtain ⟨m, hm, -, hf, hb⟩ := decode_layout (fillBuffer 8 (s.take k)) [] ht
      (fillBuffer_length _ _) (fun _ => rfl)
    have hdec := Decode_data h1 h2 (cutReader_none _ (hN.trans hN0))
    rw [hN, hN0] at hdec
    obtain ⟨s', hs', hrest⟩ := h.message (hdec.trans (by rw [show fillBuffer 0 [] = [] from rfl, hm]))
    rw [hf, hb, hfill, List.nil_append, List.append_assoc] at hs'
    rw [drop_eq_of_take hs'] at hrest
    rcases Nat.lt_or_ge k 8 with hlt | hge
    · exact absurd hrest (lag_differs (Nat.sub_pos_of_lt hlt) s' _)
    · obtain rfl : k = 8 := Nat.le_antisymm hkn hge
      rw [Nat.sub_self, List.replicate_zero, List.append_nil] at hfill
      rw [Nat.sub_self, List.replicate_zero, List.nil_append] at hs' hrest
      rw [hfill] at hN
      rw [hs']
      refine .empty (by simp [hkl]) (hready rfl) (by rw [hN, hN0]) (ih s' _ ?_ hrest)
      rw [hs', List.length_append]
      omega
  · rcases Nat.lt_or_ge k s.length with hlt | hge
    · have hne : s.drop k ≠ [] := fun h0 => by
        have := congrArg List.length h0
        rw [List.length_drop, List.length_nil] at this
        omega
      let c2 : Cut := ⟨s.drop k, fun i => cuts (i + 2)⟩
      obtain ⟨j, hj⟩ : ∃ j, c2.count N = j := ⟨_, rfl⟩
      have hjN : j ≤ N := hj ▸ Cut.count_le hNpos
      have hjl : j ≤ (s.drop k).length := hj ▸ Cut.count_le_length (c := c2) hne
      have h3 : cutReader N c2 = (.ok ((s.drop k).take j), c2.take j) := by
        rw [cutReader_pos hNpos hne, hj]
      obtain ⟨m, hm, -, hf, hb⟩ := decode_layout (fillBuffer 8 (s.take k))
        (fillBuffer N ((s.drop k).take j)) ht (fillBuffer_length _ _) (absurd rfl)
      have hdec := Decode_data h1 h2 (by rw [hN]; exact h3)
      obtain ⟨s', hs', hrest⟩ := h.message (hdec.trans (by rw [hN, hm]))
      rw [hf, hfill, List.append_assoc] at hs'
      have hdrop := drop_eq_of_take hs'
      have hbody : body m = (s.drop k).take j ++ List.replicate (N - j) 0 := by
        rw [hb, fillBuffer_cut hjN hjl]
      have hlen : (body m).length = N := by rw [hb, fillBuffer_length]
      rw [hdrop] at hbody
      have hlate := drop_late hlen hjN hbody
      simp only [Cut.take, c2, hdrop, hlate] at hrest
      rcases Nat.lt_or_ge 0 (8 - k + N - j) with hlag | hnolag
      · exact absurd hrest (lag_differs hlag s' _)
      · obtain rfl : k = 8 := by omega
        obtain rfl : j = N := by omega
        rw [Nat.sub_self, List.replicate_zero, List.append_nil] at hfill
        rw [Nat.sub_self, List.replicate_zero, List.nil_append] at hs'
        rw [show 8 - 8 + j - j = 0 by omega, List.replicate_zero, List.nil_append] at hrest
        rw [hfill] at hN
        have hcut := (Cut.count_eq (c := c2) hNpos hjl).mp hj
        rw [hs']
        refine .data (by simp [hkl]) (hready rfl) (hlen.trans hN.symm) (by omega)
          (by rw [hlen]; exact hcut) (ih s' _ ?_ hrest)
        rw [hs', List.length_append, List.length_append]
        omega
    · -- the stream ends in front of the data: both runs have to see that
      obtain rfl : k = s.length := Nat.le_antisymm hkl hge
      have hnil : s.drop s.length = [] := List.drop_length
      have hdec := Decode_noData h1 h2 (by rw [hN]; exact cutReader_nil hNpos hnil)
      have hfirst := (decodes_agree h).1
      rw [hdec] at hfirst
      rcases Nat.lt_or_ge s.length 8 with hlt | hge8
      · have hshort : fullReader 8 s = (.error .unexpectedEOF, []) := by
          rw [fullReader, if_neg (by omega), if_neg hs]
        rw [Decode_noPayload (fullReader_cons msgChannelData s) hshort] at hfirst
        cases hfirst
      · have h8 : s.length = 8 := Nat.le_antisymm hkn hge8
        rw [hfill, List.take_length, h8, Nat.sub_self, List.replicate_zero, List.append_nil] at hN
        exact .headed h8 (hready h8) (by omega)

end Step

/-- Decoding alike, result for result, leaves no packet cut. -/
theorem Agree.whole {s : List UInt8} {cuts : Nat → Nat} (h : Agree ⟨s, cuts⟩ s) : Whole s cuts := by
  obtain ⟨n, hn⟩ : ∃ n, s.length ≤ n := ⟨_, Nat.le_refl _⟩
  induction n generalizing s cuts with
  | zero =>
    obtain rfl := List.length_eq_zero_iff.mp (Nat.le_zero.mp hn)
    exact .done cuts
  | succ n ih =>
    cases s with
    | nil => exact .done cuts
    | cons t s =>
      rw [List.length_cons] at hn
      have ih' : ∀ s' cuts', s'.length ≤ s.length → Agree ⟨s', cuts'⟩ s' → Whole s' cuts' :=
        fun s' cuts' hl h' => ih h' (by omega)
      by_cases ht : IsMsgNum t
      · by_cases hs : s = []
        · subst hs
          exact .bare cuts ht
        · by_cases hd : t = msgChannelData
          · subst hd
            exact h.data ih' hs
          · exact h.plain ih' ht hd hs
      · have h0 : payloadSizes t = 0 := payloadSizes_eq_zero.mpr ht
        have hd : t ≠ msgChannelData := fun h => ht (h ▸ by decide)
        have hcut := Decode_plain (cutReader_type t s cuts) hd (cutReader_none _ h0)
        have hfull := Decode_plain (fullReader_cons t s) hd
          (by rw [h0]; exact fullReader_append [] s)
        have hrest := (decodes_agree h).2
        rw [hcut, hfull] at hrest
        exact .unknown ht (ih' s _ (Nat.le_refl _) hrest)

/-- **Decoding a cut stream.** The decoder depends on the bytes alone exactly where no
packet is cut: where every packet has its payload, and then its data, ready in one
piece. -/
theorem Decode_faithful_iff (c : Cut) : Faithful c ↔ Whole c.stream c.cuts :=
  ⟨fun h => Agree.whole h.results, fun h => h.faithful⟩

/-- An EOF packet for channel 7, delivered byte by byte, decodes as one for channel 0. -/
theorem Decode_cut_fabricates : ¬ Faithful ⟨[105, 0, 0, 0, 7], fun _ => 1⟩ := by
  intro h
  have := h.results 1
  exact absurd this (by decide)

end Qtalk.Codec
