import Qtalk.Mux.Channel

/-!
# Reading an ended channel

`channel.Read` of `golang/mux/channel.go` as one call, with what its `WindowAdjustMessage`
meets: the channel may have been closed before `send` gets `writeMu`, and the transport may
refuse the packet. `Read_steps` puts the call together from the channel model's steps. The
data is behind the peer's EOF or Close, so no `Read` waits.
-/

namespace Qtalk.Mux
open Qtalk.Codec

/-- The errors a `Read` returns. -/
inductive SendError where
  | eof
  /-- another error of the transport -/
  | other
  deriving DecidableEq, Repr

/-- A call of `Read`, and what it meets. -/
structure ReadArgs where
  /-- `len(data)` -/
  size : Nat
  /-- `sentClose` is set, by `Close` or by the session loop, before this call sends -/
  closing : Bool := false
  /-- what `Encode` returns -/
  encode : Option SendError := none
  deriving DecidableEq, Repr

/-- What a `Read` returns: the bytes, which `n` counts, and `err`. -/
abbrev ReadResult := List UInt8 × Option SendError

namespace Channel

/-- The error of `send`. -/
def sendError (ch : Channel) (encode : Option SendError) : Option SendError :=
  if ch.sentClose then some .eof else encode

/-- `Read`; `none` where it waits. -/
def ReadAll (ch : Channel) (t : ReadArgs) : Option (Channel × ReadResult) :=
  let ch := { ch with sentClose := ch.sentClose || t.closing }
  match ch.pending.Read t.size with
  | .wait => none
  | .eof => some (ch, [], some .eof)
  | .bytes bs b =>
    if bs.length > 0 then
      let n := UInt32.ofNat bs.length
      let ch := { ch with pending := b, got := ch.got ++ bs, myWindow := ch.myWindow + n }
      let err := ch.sendError t.encode
      some (ch, bs, if bs.length > 0 ∧ err = some .eof then none else err)
    else some ({ ch with pending := b }, bs, none)

/-- One `Read` after the other. -/
def ReadEach : Channel → List ReadArgs → Option (Channel × List ReadResult)
  | ch, [] => some (ch, [])
  | ch, t :: ts => do
    let (ch, r) ← ch.ReadAll t
    let (ch, rs) ← ch.ReadEach ts
    return (ch, r :: rs)

/-- The call is the channel model's steps, one after the other, if it gets bytes. -/
theorem Read_steps {ch ch' : Channel} {t : ReadArgs} {bs : List UInt8} {err : Option SendError}
    (h : ch.ReadAll t = some (ch', bs, err)) (hbs : bs ≠ []) :
    ∃ ch₁ ch₂, ch.Read t.size = some ch₁ ∧ ch₁.adjustWindow ch.reads.length = some ch₂ ∧
      ∃ sent, { ch₂ with sentClose := ch₂.sentClose || t.closing }.sendAdjust ch.reads.length =
        some (ch', sent) := by
  rw [ReadAll] at h
  dsimp only at h
  split at h
  · cases h
  · cases h
    exact absurd rfl hbs
  · next bs₀ b hread =>
    split at h
    · next hpos =>
      cases h
      obtain ⟨x, xs, rfl⟩ := List.exists_cons_of_ne_nil hbs
      let n := UInt32.ofNat (x :: xs).length
      let ch₁ := { ch with
        pending := b, got := ch.got ++ (x :: xs), reads := ch.reads ++ [ReadCall.took n] }
      let ch₂ := { ch₁ with myWindow := ch.myWindow + n, reads := ch.reads ++ [ReadCall.credited n] }
      have htook : ch₁.reads[ch.reads.length]? = some (.took n) := List.getElem?_concat_length
      have hcredited : ch₂.reads[ch.reads.length]? = some (.credited n) := List.getElem?_concat_length
      have hset : ch₁.reads.set ch.reads.length (.credited n) = ch₂.reads := by
        rw [List.set_append_right _ _ (Nat.le_refl _), Nat.sub_self]
        rfl
      have herase : ch₂.reads.eraseIdx ch.reads.length = ch.reads := by
        rw [List.eraseIdx_append_of_length_le (Nat.le_refl _), Nat.sub_self]
        exact List.append_nil _
      refine ⟨ch₁, ch₂, ?_, ?_, ?_⟩
      · rw [Channel.Read, hread]
      · simp only [adjustWindow, htook, bind, Option.bind_some, hset]
        rfl
      · simp only [sendAdjust, hcredited, bind, Option.bind_some, herase, send]
        split
        · exact ⟨_, rfl⟩
        · exact ⟨_, rfl⟩
    · next hpos =>
      cases h
      exact absurd (List.length_pos_iff.mpr hbs) hpos

end Channel

/-- Errors are put off until the buffer is drained: a `Read` that returns bytes returns no
error, the bytes come in order and as many as fit, and all of them before the first `io.EOF`. -/
structure PutOff (content : List UInt8) (ts : List ReadArgs) (rs : List ReadResult) : Prop where
  length : rs.length = ts.length
  bytes : rs.flatMap Prod.fst = content.take (ts.map ReadArgs.size).sum
  noError : ∀ r ∈ rs, r.1 ≠ [] → r.2 = none
  drained : ∀ front bs back, rs = front ++ (bs, some .eof) :: back → front.flatMap Prod.fst = content

/-- No `Read` that finds one of the `left` bytes has its message refused with an error that is not
`io.EOF`, unless `sentClose` is set by then. -/
def Unrefused : Nat → Bool → List ReadArgs → Prop
  | _, _, [] => True
  | left, sentClose, t :: ts =>
    (0 < t.size → 0 < left → (sentClose || t.closing) = false → t.encode ≠ some .other) ∧
      Unrefused (left - t.size) (sentClose || t.closing) ts

/-! ## One call -/

/-- What a call on an ended channel does. -/
structure ReadDone (ch : Channel) (t : ReadArgs) (ch' : Channel) (r : ReadResult) : Prop where
  bytes : r.1 = ch.pending.content.take t.size
  rest : ch'.pending.content = ch.pending.content.drop t.size
  closed : ch'.pending.closed = true
  sentClose : ch'.sentClose = (ch.sentClose || t.closing)
  /-- with bytes: no error, unless the message is refused -/
  error : r.1 ≠ [] → (r.2 = none ↔ (ch.sentClose || t.closing) = true ∨ t.encode ≠ some .other)
  eof : r.2 = some .eof → r.1 = [] ∧ ch.pending.content = []

/-- The error of a `Read` with bytes. -/
theorem reported (sentClose : Bool) (encode : Option SendError) :
    let err := if sentClose then some .eof else encode
    ((if err = some .eof then none else err) = none ↔ sentClose = true ∨ encode ≠ some .other) ∧
      (if err = some .eof then none else err) ≠ some .eof := by
  rcases sentClose with - | -
  · rcases encode with - | - | - <;> decide
  · exact ⟨by simp, by simp⟩

theorem Channel.ReadAll_done {ch : Channel} (hcl : ch.pending.closed = true) (t : ReadArgs) :
    ∃ ch' r, ch.ReadAll t = some (ch', r) ∧ ReadDone ch t ch' r := by
  rcases Nat.eq_zero_or_pos t.size with hz | hpos
  · have hread : ch.pending.Read t.size = .bytes [] ch.pending := by rw [hz]; rfl
    refine ⟨{ ch with sentClose := ch.sentClose || t.closing }, ([], none), ?_, ?_⟩
    · simp only [ReadAll, hread]
      rfl
    · constructor <;> simp [hz, hcl]
  · by_cases hc : ch.pending.content = []
    · have hread : ch.pending.Read t.size = .eof := by rw [Buffer.Read_empty hpos hc, if_pos hcl]
      refine ⟨{ ch with sentClose := ch.sentClose || t.closing }, ([], some .eof), ?_, ?_⟩
      · simp only [ReadAll, hread]
      · constructor <;> simp [hc, hcl]
    · obtain ⟨b, hread, hcontent, hclosed⟩ := Buffer.Read_pos hpos hc
      have hne : ch.pending.content.take t.size ≠ [] := by simp [hc, Nat.ne_of_gt hpos]
      let sentClose := ch.sentClose || t.closing
      let err := if sentClose then some .eof else t.encode
      let ch' := { ch with
        sentClose, pending := b, got := ch.got ++ ch.pending.content.take t.size
        myWindow := ch.myWindow + UInt32.ofNat (ch.pending.content.take t.size).length }
      refine ⟨ch', (ch.pending.content.take t.size, if err = some .eof then none else err), ?_, ?_⟩
      · have hlen := List.length_pos_iff.mpr hne
        simp only [ReadAll, hread, hlen, if_true, true_and]
        rfl
      · obtain ⟨herror, hnever⟩ := reported sentClose t.encode
        exact ⟨rfl, hcontent, hclosed.trans hcl, rfl, fun _ => herror, fun heof => absurd heof hnever⟩

/-! ## One call after the other -/

theorem PutOff.nil (content : List UInt8) : PutOff content [] [] :=
  ⟨rfl, rfl, by simp, by simp⟩

theorem PutOff.cons {content : List UInt8} {t : ReadArgs} {ts : List ReadArgs} {r : ReadResult}
    {rs : List ReadResult} (hbytes : r.1 = content.take t.size)
    (heof : r.2 = some .eof → r.1 = [] ∧ content = []) :
    PutOff content (t :: ts) (r :: rs) ↔ (r.1 ≠ [] → r.2 = none) ∧ PutOff (content.drop t.size) ts rs := by
  have hsplit : ∀ bs, r.1 ++ bs = content ↔ bs = content.drop t.size := by
    intro bs
    have hboth : r.1 ++ bs = content ↔ r.1 ++ bs = r.1 ++ content.drop t.size := by
      rw [hbytes, List.take_append_drop]
    exact hboth.trans (List.append_right_inj _)
  constructor
  · intro h
    refine ⟨h.noError r List.mem_cons_self, ?_, ?_, fun r' hr' => h.noError r' (List.mem_cons_of_mem _ hr'), ?_⟩
    · simpa using h.length
    · have hall := h.bytes
      rw [List.flatMap_cons, List.map_cons, List.sum_cons, List.take_add, ← hbytes] at hall
      exact List.append_cancel_left hall
    · intro front bs back hrs
      have hall := h.drained (r :: front) bs back (by rw [hrs]; rfl)
      exact (hsplit _).mp hall
  · rintro ⟨hnone, h⟩
    refine ⟨by simpa using h.length, ?_, ?_, ?_⟩
    · rw [List.flatMap_cons, List.map_cons, List.sum_cons, List.take_add, ← hbytes, h.bytes]
    · intro r' hr'
      rcases List.mem_cons.mp hr' with rfl | hr'
      · exact hnone
      · exact h.noError r' hr'
    · intro front bs back hrs
      cases front with
      | nil =>
        cases hrs
        exact ((heof rfl).2).symm
      | cons r' front =>
        cases hrs
        exact (hsplit _).mpr (h.drained front bs back rfl)

/-- The reads put errors off exactly if none that returns bytes meets a refused message. -/
theorem reads_put_off {ch : Channel} (hcl : ch.pending.closed = true) (ts : List ReadArgs) :
    ∃ ch' rs, ch.ReadEach ts = some (ch', rs) ∧
      (PutOff ch.pending.content ts rs ↔ Unrefused ch.pending.content.length ch.sentClose ts) := by
  induction ts generalizing ch with
  | nil => exact ⟨ch, [], rfl, iff_of_true (.nil _) trivial⟩
  | cons t ts ih =>
    obtain ⟨ch₁, r, hread, hdone⟩ := Channel.ReadAll_done hcl t
    obtain ⟨ch₂, rs, hreads, hiff⟩ := ih hdone.closed
    refine ⟨ch₂, r :: rs, ?_, ?_⟩
    · simp only [Channel.ReadEach, hread, hreads, bind, Option.bind_some]
      rfl
    · rw [PutOff.cons hdone.bytes hdone.eof, ← hdone.rest, hiff, Unrefused, hdone.rest, hdone.sentClose,
        List.length_drop]
      refine and_congr_left fun _ => ?_
      have hsome : r.1 ≠ [] ↔ 0 < t.size ∧ 0 < ch.pending.content.length := by
        rw [hdone.bytes, ne_eq, List.take_eq_nil_iff, not_or, List.length_pos_iff, Nat.pos_iff_ne_zero]
      constructor
      · intro h hsize hlen hopen
        have hne := hsome.mpr ⟨hsize, hlen⟩
        exact ((hdone.error hne).mp (h hne)).resolve_left (by simp [hopen])
      · intro h hne
        obtain ⟨hsize, hlen⟩ := hsome.mp hne
        rw [hdone.error hne]
        cases hs : ch.sentClose || t.closing with
        | true => exact .inl rfl
        | false => exact .inr (h hsize hlen hs)

/-- A channel on which the peer sent three bytes and an EOF. -/
def endedChannel : Channel := { direction := .inbound, pending := (Buffer.write {} [1, 2, 3]).eof }

example : (do
    let ch ← Channel.handleData { direction := .inbound, maxIncomingPayload := channelMaxPacket }
      { channelID := 0, length := 3, data := [1, 2, 3] }
    return (← ch.handle 0 (.eof { channelID := 0 })).1.pending) = .ok endedChannel.pending := rfl

/-- The session is closed between two reads; only what is refused before that would be reported. -/
theorem reads_put_off_run : ∃ ch rs, endedChannel.ReadEach
    [{ size := 2 }, { size := 2, closing := true, encode := some .other }, { size := 2 }] =
      some (ch, rs) ∧ rs = [([1, 2], none), ([3], none), ([], some .eof)] ∧
        PutOff [1, 2, 3] [{ size := 2 }, { size := 2, closing := true, encode := some .other },
          { size := 2 }] rs := by
  obtain ⟨ch, rs, h, hiff⟩ := @reads_put_off endedChannel rfl
    [{ size := 2 }, { size := 2, closing := true, encode := some .other }, { size := 2 }]
  have hrs : some rs = some [([1, 2], none), ([3], none), ([], some .eof)] :=
    (congrArg (Option.map Prod.snd) h).symm.trans (by decide)
  refine ⟨ch, rs, h, Option.some.inj hrs, hiff.mpr ?_⟩
  simp [Unrefused]

/-- The peer closes its session right behind the EOF, and the transport refuses the first
`WindowAdjustMessage`: its error comes with the bytes. -/
theorem refused_adjust_reported : ∃ ch rs, endedChannel.ReadEach
    [{ size := 2, encode := some .other }, { size := 2 }] = some (ch, rs) ∧
      rs = [([1, 2], some .other), ([3], none)] ∧
        ¬PutOff endedChannel.pending.content [{ size := 2, encode := some .other }, { size := 2 }] rs := by
  refine ⟨_, _, rfl, rfl, fun h => ?_⟩
  cases h.noError ([1, 2], some .other) List.mem_cons_self (List.cons_ne_nil _ _)

end Qtalk.Mux
