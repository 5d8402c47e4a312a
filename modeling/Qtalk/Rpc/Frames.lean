import Mathlib.Algebra.BigOperators.Group.List.Basic
import Mathlib.Combinatorics.Enumerative.Composition
import Mathlib.Algebra.Order.Ring.Nat
import Qtalk.Lib.BigEndian
import Qtalk.Lib.Framing
import Qtalk.Mux.Writer
import Qtalk.Rpc.Inbox

/-!
# Length-prefixed frames over a channel

`frameEncoder` and `frameDecoder` of `golang/rpc/codec.go`, over any inner codec and any
reader. The decoder makes one `Read` for the prefix and one for the encoding and looks at
neither count, so on a channel it depends on when packets come in. `InTime` is the
condition on the cuts and the schedule under which it does not: every frame that comes
back does so because its prefix, and then its encoding, was there when it was asked for
(`frames_survive_iff`).
-/

namespace Qtalk.Rpc
open Qtalk.Codec Qtalk.Lib Qtalk.Mux

/-- The inner codec: it decodes what it encodes. -/
structure Codec (V E : Type) where
  encode : V → Except E (List UInt8)
  decode : List UInt8 → Except E V
  decode_encode : ∀ v b, encode v = .ok b → decode b = .ok v

/-- What `frameDecoder.Decode` fails with. -/
inductive FrameError (E : Type) where
  | read (e : ReadError)
  | codec (e : E)
  deriving DecidableEq, Repr

variable {V E σ : Type}

/-- `append(prefix, b...)`. -/
def frame (b : List UInt8) : List UInt8 := beBytes (UInt32.ofNat b.length) ++ b

/-- `frameEncoder.Encode`: what it hands to `Write`. -/
def frameEncoder.Encode (c : Codec V E) (v : V) : Except E (List UInt8) := do
  let b ← c.encode v
  return frame b

/-- `frameDecoder.Decode`. -/
def frameDecoder.Decode (c : Codec V E) (r : Reader σ) (s : σ) : Except (FrameError E) V × σ :=
  match r 4 s with
  | (.error e, s) => (.error (.read e), s)
  | (.ok bs, s) =>
    let size := (beWord (fillBuffer 4 bs)).toNat
    match r size s with
    | (.error e, s) => (.error (.read e), s)
    | (.ok bs, s) => ((c.decode (fillBuffer size bs)).mapError .codec, s)

/-- The frames of encodings of these lengths are that long. -/
def frameLengths (ns : List UInt32) : List Nat := ns.map fun n => 4 + n.toNat

/-- Repeated `Decode` returns exactly the values, in order, and then nothing more. -/
def Survives (c : Codec V E) (vs : List V) (i : Inbox) : Prop :=
  (decodes (frameDecoder.Decode c channelRead) (vs.length + 1) i).1
    = vs.map .ok ++ [.error (.read (if i.ends then .eof else .blocked))]

/-- When the decoder asks for the prefix of a frame, all of it has come in; likewise the
encoding. -/
def InTime : List UInt32 → Timing → Prop
  | [], _ => True
  | n :: ns, t =>
    4 ≤ t.ready 4 ∧ n.toNat ≤ (t.read 4).ready n.toNat ∧ InTime ns ((t.read 4).read n.toNat)

instance InTime.decidable : ∀ ns t, Decidable (InTime ns t)
  | [], _ => .isTrue trivial
  | n :: ns, t =>
    have := InTime.decidable ns ((t.read 4).read n.toNat)
    inferInstanceAs (Decidable (_ ∧ _ ∧ _))

/-! ## One frame -/

theorem Encode_ok {c : Codec V E} {v : V} {f : List UInt8} (h : frameEncoder.Encode c v = .ok f) :
    ∃ b, c.encode v = .ok b ∧ f = frame b := by
  cases hb : c.encode v with
  | error e => simp [frameEncoder.Encode, hb, bind, Except.bind] at h
  | ok b =>
    simp only [frameEncoder.Encode, hb] at h
    cases h
    exact ⟨b, rfl, rfl⟩

theorem frame_length (b : List UInt8) : (frame b).length = 4 + b.length := by
  simp [frame]

theorem Decode_ok_iff {c : Codec V E} {r : Reader σ} {s s' : σ} {v : V} :
    frameDecoder.Decode c r s = (.ok v, s') ↔
      ∃ p s1 n bs, r 4 s = (.ok p, s1) ∧ beWord (fillBuffer 4 p) = n ∧
        r n.toNat s1 = (.ok bs, s') ∧ c.decode (fillBuffer n.toNat bs) = .ok v := by
  constructor
  · intro h
    unfold frameDecoder.Decode at h
    split at h
    · simp at h
    · next p s1 h1 =>
      simp only at h
      split at h
      · simp at h
      · next bs s2 h2 =>
        rw [Prod.mk.injEq] at h
        obtain ⟨hv, rfl⟩ := h
        refine ⟨p, s1, _, bs, h1, rfl, h2, ?_⟩
        generalize c.decode _ = res at hv ⊢
        cases res with
        | error e => cases hv
        | ok v => cases hv; rfl
  · rintro ⟨p, s1, n, bs, h1, rfl, h2, h3⟩
    simp [frameDecoder.Decode, h1, h2, h3, Except.mapError]

theorem Decode_end (c : Codec V E) {i : Inbox} (hs : i.stream = []) :
    (frameDecoder.Decode c channelRead i).1
      = .error (.read (if i.ends then .eof else .blocked)) := by
  have h := Inbox.read_end (n := 4) (by decide) hs
  unfold frameDecoder.Decode
  generalize channelRead 4 i = res at h
  obtain ⟨_ | _, _⟩ := res <;> cases h
  rfl

/-- A frame that is there when it is asked for gives its value. -/
theorem Decode_inTime {c : Codec V E} {v : V} {b rest : List UInt8} {i : Inbox} {n : UInt32}
    (hb : c.encode v = .ok b) (hn : b.length = n.toNat) (hs : i.stream = frame b ++ rest)
    (h4 : 4 ≤ i.timing.ready 4) (hr : n.toNat ≤ (i.timing.read 4).ready n.toNat) :
    ∃ i', frameDecoder.Decode c channelRead i = (.ok v, i') ∧ i'.stream = rest ∧
      i'.timing = (i.timing.read 4).read n.toNat ∧ i'.ends = i.ends := by
  have hsize : UInt32.ofNat b.length = n := by rw [hn, UInt32.ofNat_toNat]
  rw [frame, hsize, List.append_assoc] at hs
  obtain ⟨i1, h1, hs1, ht1, he1⟩ := Inbox.read_bytes (i := i) (n := 4) (.inr (by rw [hs]; simp [beBytes]))
  rw [Timing.count_eq_iff.mpr h4, hs] at h1 hs1
  have hs1 : i1.stream = b ++ rest := hs1
  have hne : n.toNat = 0 ∨ i1.stream ≠ [] := by
    rcases Nat.eq_zero_or_pos n.toNat with h0 | hpos
    · exact .inl h0
    · refine .inr fun h => ?_
      rw [hs1, List.append_eq_nil_iff] at h
      rw [h.1, List.length_nil] at hn
      omega
  obtain ⟨i2, h2, hs2, ht2, he2⟩ := Inbox.read_bytes hne
  rw [ht1, Timing.count_eq_iff.mpr hr, hs1, ← hn] at h2 hs2
  rw [List.take_left] at h2
  rw [List.drop_left] at hs2
  refine ⟨i2, Decode_ok_iff.mpr ⟨_, i1, n, b, h1, ?_, hn ▸ h2, ?_⟩, hs2, by rw [ht2, ht1],
    he2.trans he1⟩
  · rw [show (beBytes n ++ (b ++ rest)).take 4 = beBytes n from rfl]
    have := beWord_beBytes n []
    rwa [List.append_nil] at this
  · rw [← hn, fillBuffer_full]
    exact c.decode_encode v b hb

/-- Frames that are in time give their values back, for any codec. -/
theorem Survives.of_inTime {c : Codec V E} {vs : List V} {fs : List (List UInt8)} {ns : List UInt32}
    {i : Inbox} (hf : List.Forall₂ (fun v f => frameEncoder.Encode c v = .ok f) vs fs)
    (hl : fs.map List.length = frameLengths ns) (hs : i.stream = fs.flatten)
    (ht : InTime ns i.timing) : Survives c vs i := by
  induction hf generalizing ns i with
  | nil => simp [Survives, decodes_succ, Decode_end c hs]
  | @cons v f vs fs hv hf ih =>
    cases ns with
    | nil => cases hl
    | cons n ns =>
      obtain ⟨b, hb, rfl⟩ := Encode_ok hv
      obtain ⟨h4, hr, ht⟩ := ht
      simp only [List.map_cons, frameLengths, List.cons.injEq, frame_length] at hl
      obtain ⟨i', hd, hs', ht', he'⟩ :=
        Decode_inTime hb (by omega) (hs.trans List.flatten_cons) h4 hr
      have := ih hl.2 hs' (ht' ▸ ht)
      rw [Survives, he'] at this
      rw [Survives, List.length_cons, decodes_succ, hd, this]
      rfl

/-- What the reader of a channel has ahead, when the peer's channel has sent `ms`. -/
def Inbox.ofSent (ms : List Message) (ends : Bool) (arrive : Nat → Nat) : Inbox where
  packets := (ms.map body).filter (· ≠ [])
  full p hp := by simpa using (List.mem_filter.mp hp).2
  ends := ends
  arrive := arrive

theorem Inbox.ofSent_stream (ms : List Message) (ends : Bool) (arrive : Nat → Nat) :
    (Inbox.ofSent ms ends arrive).stream = dataOf ms := by
  rw [dataOf, List.flatMap_def]
  exact List.flatten_filter_ne_nil

/-- Frames that one writer has written to a channel, cut as `Write` cuts them. -/
theorem Survives.of_written {c : Codec V E} {vs : List V} {ns : List UInt32} {ch : Channel}
    {ends : Bool} {arrive : Nat → Nat} (hw : ch.Written) (hdone : ch.writes = [])
    (hf : List.Forall₂ (fun v f => frameEncoder.Encode c v = .ok f) vs ch.wrote)
    (hl : ch.wrote.map List.length = frameLengths ns)
    (ht : InTime ns (Inbox.ofSent ch.sent ends arrive).timing) :
    Survives c vs (.ofSent ch.sent ends arrive) := by
  refine .of_inTime hf hl ?_ ht
  rw [Inbox.ofSent_stream, hw.data, Channel.written, hdone, List.flatMap_nil, List.append_nil]

/-! ## A late packet shows -/

/-- The codec that hands the encoding to the caller. -/
def raw : Codec (List UInt8) Unit where
  encode := .ok
  decode := .ok
  decode_encode _ _ h := h.symm

theorem Inbox.read_ok {i i' : Inbox} {n : Nat} {bs : List UInt8} (h : channelRead n i = (.ok bs, i')) :
    bs = i.stream.take (i.timing.count n) ∧ i'.stream = i.stream.drop (i.timing.count n) ∧
      i'.timing = i.timing.read n ∧ i'.ends = i.ends := by
  by_cases hn : n = 0 ∨ i.stream ≠ []
  · obtain ⟨i1, h1, hs, ht, he⟩ := Inbox.read_bytes hn
    rw [h] at h1
    cases h1
    exact ⟨rfl, hs, ht, he⟩
  · simp only [not_or, ne_eq, not_not] at hn
    have := Inbox.read_end (Nat.pos_of_ne_zero hn.1) hn.2
    rw [h] at this
    cases this

/-- A buffer filled from a stream that lags behind by zeros: if it holds the bytes that
belong there, the stream lags on by what was missed. -/
theorem lagging_read {i i' : Inbox} {n j : Nat} {d s bs : List UInt8} (h : channelRead n i = (.ok bs, i'))
    (hs : i.stream = List.replicate j 0 ++ (d ++ s)) (hd : d.length = n) (hbuf : fillBuffer n bs = d) :
    i'.stream = List.replicate (j + n - i.timing.count n) 0 ++ s ∧ i'.timing = i.timing.read n ∧
      i'.ends = i.ends := by
  obtain ⟨rfl, hs', ht', he'⟩ := Inbox.read_ok h
  have hk := i.timing.count_le n
  have hl : i.timing.count n ≤ i.stream.length := by
    rw [hs]
    simp only [List.length_append]
    omega
  rw [fillBuffer_cut hk hl, hs] at hbuf
  refine ⟨?_, ht', he'⟩
  rw [hs', hs, drop_late hd hk hbuf.symm]

/-- Zeros left over decode to an empty value. -/
theorem Decode_zeros {i : Inbox} {j : Nat} (hj : 0 < j) (hs : i.stream = List.replicate j 0) :
    (frameDecoder.Decode raw channelRead i).1 = .ok [] := by
  have hne : i.stream ≠ [] := by
    rw [hs]
    simp [Nat.ne_of_gt hj]
  obtain ⟨i1, h1, -, -, -⟩ := Inbox.read_bytes (n := 4) (.inr hne)
  obtain ⟨i2, h2, -, -, -⟩ := Inbox.read_bytes (i := i1) (n := 0) (.inl rfl)
  have hk := i.timing.count_le 4
  have hbuf : fillBuffer 4 (i.stream.take (i.timing.count 4)) = List.replicate 4 0 := by
    have hl : (i.stream.take (i.timing.count 4)).length ≤ 4 := by
      rw [List.length_take]
      omega
    rw [fillBuffer_eq hl, hs, List.take_replicate, List.replicate_append_replicate]
    simp only [List.length_replicate]
    congr 1
    omega
  have hd : frameDecoder.Decode raw channelRead i = (.ok [], i2) :=
    Decode_ok_iff.mpr ⟨_, i1, 0, _, h1, by rw [hbuf]; rfl, h2, rfl⟩
  rw [hd]

/-- The raw values come back from a stream that lags behind by zeros only if it does not
lag, and each frame is in time. -/
theorem inTime_of_survives {bs : List (List UInt8)} {ns : List UInt32} {i : Inbox} {j : Nat}
    (hl : bs.map List.length = ns.map UInt32.toNat)
    (hs : i.stream = List.replicate j 0 ++ bs.flatMap frame) (h : Survives raw bs i) :
    j = 0 ∧ InTime ns i.timing := by
  induction bs generalizing ns i j with
  | nil =>
    obtain rfl : ns = [] := by simpa using hl.symm
    refine ⟨?_, trivial⟩
    by_contra hj
    rw [List.flatMap_nil, List.append_nil] at hs
    rw [Survives, List.length_nil, decodes_succ] at h
    rw [(Decode_zeros (Nat.pos_of_ne_zero hj) hs)] at h
    cases h
  | cons b bs ih =>
    cases ns with
    | nil => cases hl
    | cons n ns =>
      simp only [List.map_cons, List.cons.injEq] at hl
      obtain ⟨hn, hl⟩ := hl
      rw [Survives, List.length_cons, decodes_succ, List.map_cons, List.cons_append,
        List.cons.injEq] at h
      obtain ⟨hfirst, hrest⟩ := h
      obtain ⟨p, i1, m, q, h1, hm, h2, hq⟩ := Decode_ok_iff.mp (Prod.ext hfirst rfl)
      have hq : fillBuffer m.toNat q = b := by cases hq; rfl
      -- the size was read right, so the prefix was
      obtain rfl : m = n := by
        apply UInt32.toNat_inj.mp
        rw [← hn, ← hq, fillBuffer_length]
      have hp : fillBuffer 4 p = beBytes m := by
        rw [← hm, beBytes_beWord (fillBuffer_length 4 p)]
      have hsize : UInt32.ofNat b.length = m := by rw [hn, UInt32.ofNat_toNat]
      rw [List.flatMap_cons, frame, hsize, List.append_assoc] at hs
      obtain ⟨hs1, ht1, he1⟩ := lagging_read h1 hs rfl hp
      obtain ⟨hs2, ht2, he2⟩ := lagging_read h2 hs1 hn hq
      have hsurv : Survives raw bs (frameDecoder.Decode raw channelRead i).2 := by
        rw [Survives, hrest, he2, he1]
      obtain ⟨hlag, hin⟩ := ih hl hs2 hsurv
      rw [ht2, ht1] at hin
      rw [ht1] at hlag
      have hk4 := i.timing.count_le 4
      have hkn := (i.timing.read 4).count_le m.toNat
      exact ⟨by omega, Timing.count_eq_iff.mp (by omega), Timing.count_eq_iff.mp (by omega), hin⟩

/-! ## Every codec, every cut -/

/-- The frames `fs`, cut into packets of the sizes `cut` gives. -/
def Inbox.cut {n : Nat} (fs : List (List UInt8)) (cut : Composition n) (h : fs.flatten.length = n)
    (ends : Bool) (arrive : Nat → Nat) : Inbox where
  packets := fs.flatten.splitWrtCompositionAux cut.blocks
  full p hp := by
    have hl := List.map_length_splitWrtCompositionAux
      (Nat.le_of_eq (cut.blocks_sum.trans h.symm))
    have hp := List.mem_map_of_mem (f := List.length) hp
    rw [hl] at hp
    exact List.length_pos_iff.mp (cut.blocks_pos hp)
  ends := ends
  arrive := arrive

theorem Inbox.cut_stream {n : Nat} {fs : List (List UInt8)} (cut : Composition n)
    (h : fs.flatten.length = n) (ends : Bool) (arrive : Nat → Nat) :
    (Inbox.cut fs cut h ends arrive).stream = fs.flatten :=
  List.flatten_splitWrtCompositionAux (cut.blocks_sum.trans h.symm)

theorem Inbox.cut_timing {n : Nat} {fs : List (List UInt8)} (cut : Composition n)
    (h : fs.flatten.length = n) (ends : Bool) (arrive : Nat → Nat) :
    (Inbox.cut fs cut h ends arrive).timing = ⟨0, cut.blocks, arrive⟩ := by
  have hl := List.map_length_splitWrtCompositionAux (Nat.le_of_eq (cut.blocks_sum.trans h.symm))
  rw [timing, Timing.mk.injEq]
  exact ⟨rfl, hl, rfl⟩

theorem map_length_frame {bs : List (List UInt8)} {ns : List UInt32}
    (h : bs.map List.length = ns.map UInt32.toNat) :
    (bs.map frame).map List.length = frameLengths ns := by
  have hf : List.length ∘ frame = (4 + ·) ∘ List.length := funext frame_length
  rw [List.map_map, hf, ← List.map_map, h, List.map_map]
  rfl

/-- An encoding of the given length. -/
def ones (n : UInt32) : List UInt8 := List.replicate n.toNat 1

theorem map_length_ones (ns : List UInt32) : (ns.map ones).map List.length = ns.map UInt32.toNat := by
  simp [ones, Function.comp_def]

/-- The raw codec alone shows every frame that is late, whatever the values are. -/
theorem inTime_of_raw {bs : List (List UInt8)} {ns : List UInt32}
    {cut : Composition (frameLengths ns).sum} {ends : Bool} {arrive : Nat → Nat}
    (hl : bs.map List.length = ns.map UInt32.toNat)
    (h : Survives raw bs (.cut (bs.map frame) cut
      (by rw [List.length_flatten, map_length_frame hl]) ends arrive)) :
    InTime ns ⟨0, cut.blocks, arrive⟩ := by
  have hs := Inbox.cut_stream cut (by rw [List.length_flatten, map_length_frame hl]) ends arrive
  have := (inTime_of_survives (j := 0) hl (hs.trans List.flatMap_def.symm) h).2
  rwa [Inbox.cut_timing] at this

/-- **Frames and packets.** Take the lengths of the encodings, a way to cut their frames
into packets and a schedule of arrivals. Every list of values with such encodings comes
back, whatever the codec, if and only if each prefix and each encoding is there when it
is asked for. -/
theorem frames_survive_iff (ns : List UInt32) (cut : Composition (frameLengths ns).sum)
    (ends : Bool) (arrive : Nat → Nat) :
    (∀ (V E : Type) (c : Codec V E) (vs : List V) (fs : List (List UInt8))
        (h : fs.map List.length = frameLengths ns),
        List.Forall₂ (fun v f => frameEncoder.Encode c v = .ok f) vs fs →
        Survives c vs (.cut fs cut (by rw [List.length_flatten, h]) ends arrive))
      ↔ InTime ns ⟨0, cut.blocks, arrive⟩ := by
  constructor
  · intro h
    have hl := map_length_ones ns
    refine inTime_of_raw hl (h _ _ raw (ns.map ones) _ (map_length_frame hl) ?_)
    rw [List.forall₂_map_right_iff, List.forall₂_same]
    exact fun _ _ => rfl
  · intro ht V E c vs fs h hf
    exact .of_inTime hf h (Inbox.cut_stream ..) (by rwa [Inbox.cut_timing])

/-- A frame of 40004 bytes in packets of at most `channelMaxPacket` bytes. -/
def twoPackets : Composition (frameLengths [40000]).sum := ⟨[32768, 7236], by decide, by decide⟩

/-- When its second packet comes in after the `Read` for the encoding, that is not the
value that comes back. -/
theorem second_packet_late :
    ¬ Survives raw ([40000].map ones)
      (.cut (([40000].map ones).map frame) twoPackets
        (by rw [List.length_flatten, map_length_frame (map_length_ones _)]) true
        fun i => if i = 0 then 1 else 0) := fun h =>
  absurd (inTime_of_raw (map_length_ones _) h) (by decide)

end Qtalk.Rpc
