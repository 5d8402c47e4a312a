import Qtalk.Js.FrameCodec
import Qtalk.Js.Session
import Mathlib.Data.List.Chain

/-!
# Frames written at the same time

`FrameCodec.encode` of `javascript/rpc/codec.ts` writes a frame in two writes on the
channel, the length prefix and then the body, and awaits the first before it makes the second. A
call made meanwhile puts its own prefix between the two. The frames stay whole exactly in
the runs in which no call is made while another stands between its two writes.
-/

namespace Qtalk.Js.Rpc
open Qtalk.Lib

/-- The write of a frame that a call awaits, or how the call came to an end. -/
inductive Phase where
  /-- `await this.channel.write(new Uint8Array(lenPrefix.buffer))` -/
  | lenPrefix
  /-- `await this.channel.write(buf)` -/
  | body
  | returned
  | threw
  deriving DecidableEq, Repr

/-- A call of `encode`. -/
structure Encoding (V : Type) where
  v : V
  phase : Phase
  deriving DecidableEq, Repr

/-- A write that the channel took: the number of its call, and what it is of the frame. -/
structure Put where
  call : Nat
  isBody : Bool
  bytes : List UInt8
  deriving DecidableEq, Repr

/-- A channel and the calls of `encode` on it. -/
structure Writing (V : Type) where
  ch : Chan
  calls : List (Encoding V) := []
  /-- the bytes in the data messages written -/
  sent : List UInt8 := []
  -- history
  puts : List Put := []

/-- A body comes behind the prefix of its own call, and nothing else does. -/
def Put.Follows (p q : Put) : Prop := p.isBody = false → q.call = p.call ∧ q.isBody = true

instance (p q : Put) : Decidable (p.Follows q) := inferInstanceAs (Decidable (_ → _))

/-- The bytes of a data message. -/
def dataOf : Effect → List UInt8
  | .encode (.data _ _ data) => data
  | _ => []

namespace Writing

variable {V : Type}

inductive Act (V : Type) where
  /-- `encode(v)` -/
  | encode (v : V)
  /-- a call goes on behind its await -/
  | resume (k : Nat)

def start (ch : Chan) : Writing V := { ch }

/-- The values of the calls, in the order of the calls. -/
def values (s : Writing V) : List V := s.calls.map Encoding.v

/-- `this.channel.write` in call `k`, which then awaits it; `calls` are the calls with that one
in a phase. -/
def write (s : Writing V) (k : Nat) (isBody : Bool) (bytes : List UInt8)
    (calls : Phase → List (Encoding V)) : Writing V :=
  let out := s.ch.write bytes
  match out.error with
  | none =>
    { ch := out.ch
      calls := calls (if isBody then .body else .lenPrefix)
      sent := s.sent ++ out.effects.flatMap dataOf
      puts := s.puts ++ [⟨k, isBody, bytes⟩] }
  | some _ => { s with ch := out.ch, calls := calls .threw }

/-- `encode` from one await to the next. -/
def next (codec : Codec V) (s : Writing V) : Act V → Option (Writing V)
  | .encode v =>
    let buf := codec.encode v
    let lenPrefix := setUint32 (List.replicate 4 0) 0 buf.length
    some (s.write s.calls.length false lenPrefix fun phase => s.calls ++ [⟨v, phase⟩])
  | .resume k =>
    match s.calls[k]? with
    | some ⟨v, .lenPrefix⟩ =>
      some (s.write k true (codec.encode v) fun phase => s.calls.set k ⟨v, phase⟩)
    | some ⟨v, .body⟩ => some { s with calls := s.calls.set k ⟨v, .returned⟩ }
    | _ => none

/-- Every prefix written has its own body right behind it, as soon as there is anything. -/
def Unmixed (s : Writing V) : Prop := s.puts.IsChain Put.Follows

/-- No call stands between its two writes. -/
def Settled (s : Writing V) : Prop := ∀ c ∈ s.calls, c.phase ≠ .lenPrefix

instance (s : Writing V) : Decidable s.Settled := inferInstanceAs (Decidable (∀ c ∈ s.calls, _))

/-- A call is made only while no other stands between its two writes. -/
def Alone (s : Writing V) : Act V → Prop
  | .encode _ => s.Settled
  | .resume _ => True

instance (s : Writing V) (a : Act V) : Decidable (s.Alone a) := by
  cases a <;> simp only [Alone] <;> infer_instance

/-! ## What one write does -/

/-- The application has closed nothing. -/
def Open (s : Writing V) : Prop := s.ch.sentEOF = false ∧ s.ch.sentClose = false

/-- An open channel takes what is written and stays open. -/
theorem Open.write {s : Writing V} (h : s.Open) (k : Nat) (isBody : Bool) (bytes : List UInt8)
    (calls : Phase → List (Encoding V)) :
    s.write k isBody bytes calls =
      { ch := s.ch
        calls := calls (if isBody then .body else .lenPrefix)
        sent := s.sent ++ bytes
        puts := s.puts ++ [⟨k, isBody, bytes⟩] } := by
  obtain ⟨heof, hclose⟩ := h
  have hout : s.ch.write bytes
      = { ch := s.ch, effects := [.encode (.data s.ch.remoteId bytes.length bytes)], error := none } := by
    have hkept : { s.ch with sentClose := false } = s.ch := by rw [← hclose]
    rw [Channel.write, heof, if_neg Bool.false_ne_true, Channel.send, hclose,
      if_neg Bool.false_ne_true]
    exact congrArg (fun ch => Outcome.mk ch _ none) hkept
  rw [Writing.write, hout]
  simp [dataOf]

theorem Unmixed.append {s s' : Writing V} {p : Put} (h : s.Unmixed) (hs : s'.puts = s.puts ++ [p]) :
    s'.Unmixed ↔ ∀ q ∈ s.puts.getLast?, q.Follows p := by
  have hch : s.puts.IsChain Put.Follows := h
  rw [Unmixed, hs, List.isChain_append]
  simp [hch]

theorem values_set {calls : List (Encoding V)} {k : Nat} {v : V} {phase : Phase}
    (h : calls[k]? = some ⟨v, phase⟩) (phase' : Phase) :
    (calls.set k ⟨v, phase'⟩).map Encoding.v = calls.map Encoding.v := by
  have hv : (calls.map Encoding.v)[k]? = some v := by rw [List.getElem?_map, h]; rfl
  obtain ⟨hk, hv⟩ := List.getElem?_eq_some_iff.mp hv
  rw [List.map_set, ← hv, List.set_getElem_self]

/-! ## Where the frames stand -/

/-- The frames of `done` are written, and the prefix of `pending`. -/
structure Framed (codec : Codec V) (s : Writing V) (done : List V) (pending : Option V) : Prop where
  isOpen : s.Open
  unmixed : s.Unmixed
  values : s.values = done ++ pending.toList
  between : ∀ k v, s.calls[k]? = some ⟨v, .lenPrefix⟩ ↔ k = done.length ∧ pending = some v
  sent : s.sent = frames codec done ++ pending.toList.flatMap (prefixOf codec)
  bytes : s.sent = s.puts.flatMap Put.bytes
  last : ∀ q ∈ s.puts.getLast?, q.isBody = false → q.call = done.length
  half : (∃ q ∈ s.puts.getLast?, q.isBody = false) ↔ pending.isSome

section Framed

variable {codec : Codec V} {s s' : Writing V} {done : List V} {pending : Option V} {v : V} {a : Act V}

theorem Framed.start (codec : Codec V) {ch : Chan} (heof : ch.sentEOF = false)
    (hclose : ch.sentClose = false) : Framed codec (start ch) [] none where
  isOpen := ⟨heof, hclose⟩
  unmixed := List.isChain_nil
  values := rfl
  between k v := by simp [Writing.start]
  sent := rfl
  bytes := rfl
  last q hq := by cases hq
  half := by simp [Writing.start]

theorem Framed.settled (h : Framed codec s done pending) : s.Settled ↔ pending = none := by
  constructor
  · intro hs
    cases hp : pending with
    | none => rfl
    | some v =>
      have hget := (h.between done.length v).mpr ⟨rfl, hp⟩
      exact absurd rfl (hs _ (List.mem_of_getElem? hget))
  · rintro rfl c hc hphase
    obtain ⟨k, hk⟩ := List.getElem?_of_mem hc
    obtain ⟨v, phase⟩ := c
    cases hphase
    cases ((h.between k v).mp hk).2

theorem Framed.calls_length (h : Framed codec s done pending) :
    s.calls.length = done.length + pending.toList.length := by
  have hlen := congrArg List.length h.values
  rwa [Writing.values, List.length_map, List.length_append] at hlen

theorem Framed.encode_eq (h : Framed codec s done pending) (v : V) :
    s.next codec (.encode v) = some
      { ch := s.ch
        calls := s.calls ++ [⟨v, .lenPrefix⟩]
        sent := s.sent ++ prefixOf codec v
        puts := s.puts ++ [⟨s.calls.length, false, prefixOf codec v⟩] } := by
  have hword : setUint32 (List.replicate 4 0) 0 (codec.encode v).length = prefixOf codec v := by
    simp [setUint32, prefixOf]
  rw [next, h.isOpen.write, hword]
  rfl

theorem Framed.body_eq (h : Framed codec s done pending) {k : Nat}
    (hk : s.calls[k]? = some ⟨v, .lenPrefix⟩) :
    s.next codec (.resume k) = some
      { ch := s.ch
        calls := s.calls.set k ⟨v, .body⟩
        sent := s.sent ++ codec.encode v
        puts := s.puts ++ [⟨k, true, codec.encode v⟩] } := by
  rw [next, hk]
  dsimp only
  rw [h.isOpen.write]
  rfl

/-- The last write is a prefix just when a call stands between its two. -/
theorem Framed.unmixed_encode (h : Framed codec s done pending)
    (hn : s.next codec (.encode v) = some s') : s'.Unmixed ↔ pending = none := by
  cases (h.encode_eq v).symm.trans hn
  rw [h.unmixed.append rfl]
  cases hp : pending with
  | none =>
    refine iff_of_true (fun q hq hb => ?_) rfl
    have hsome := h.half.mp ⟨q, hq, hb⟩
    rw [hp] at hsome
    cases hsome
  | some w =>
    refine iff_of_false (fun hall => ?_) (Option.some_ne_none w)
    obtain ⟨q, hq, hb⟩ := h.half.mpr (hp ▸ rfl)
    cases (hall q hq hb).2

/-- A call is made. -/
theorem Framed.encode (h : Framed codec s done none) (hn : s.next codec (.encode v) = some s') :
    Framed codec s' done (some v) := by
  have hunmixed := (h.unmixed_encode hn).mpr rfl
  have hlen := h.calls_length
  cases (h.encode_eq v).symm.trans hn
  exact
    { isOpen := h.isOpen
      unmixed := hunmixed
      values := by
        have hv := h.values
        rw [Writing.values] at hv ⊢
        rw [List.map_append, hv]
        simp
      between := fun k w => by
        rw [List.getElem?_append, hlen]
        split
        · next hk =>
          rw [h.between]
          simp at hk ⊢
          omega
        · next hk =>
          simp [List.getElem?_singleton] at hk ⊢
          intro _
          omega
      sent := by
        rw [h.sent]
        simp
      bytes := by
        rw [h.bytes]
        simp
      last := fun q hq _ => by
        rw [List.getLast?_concat] at hq
        cases hq
        simpa using hlen
      half := by simp }

/-- The call between its two writes goes on. -/
theorem Framed.body (h : Framed codec s done (some v)) {k : Nat}
    (hk : s.calls[k]? = some ⟨v, .lenPrefix⟩) (hn : s.next codec (.resume k) = some s') :
    Framed codec s' (done ++ [v]) none := by
  have hkd : k = done.length := ((h.between k v).mp hk).1
  cases (h.body_eq hk).symm.trans hn
  exact
    { isOpen := h.isOpen
      unmixed := (h.unmixed.append rfl).mpr fun q hq hb => ⟨hkd.trans (h.last q hq hb).symm, rfl⟩
      values := by
        have hv := h.values
        rw [Writing.values] at hv ⊢
        rw [values_set hk, hv]
        simp
      between := fun j w => by
        rw [List.getElem?_set]
        have hb := h.between j w
        split
        · next hj => simp
        · next hj =>
          rw [hb]
          simp
          omega
      sent := by
        rw [h.sent, frames, frames, List.flatMap_append]
        simp [frame_eq]
      bytes := by
        rw [h.bytes]
        simp
      last := fun q hq hb => by
        rw [List.getLast?_concat] at hq
        cases hq
        cases hb
      half := by simp }

/-- A call that has written its body goes on. -/
theorem Framed.returned (h : Framed codec s done pending) {k : Nat}
    (hk : s.calls[k]? = some ⟨v, .body⟩) :
    Framed codec { s with calls := s.calls.set k ⟨v, .returned⟩ } done pending where
  isOpen := h.isOpen
  unmixed := h.unmixed
  values := by
    rw [Writing.values, values_set hk]
    exact h.values
  between j w := by
    rw [List.getElem?_set, ← h.between]
    split
    · next hj =>
      rw [← hj, hk]
      simp
    · exact Iff.rfl
  sent := h.sent
  bytes := h.bytes
  last := h.last
  half := h.half

/-- While every call is made alone the frames are written one behind the other. -/
theorem Framed.step (h : Framed codec s done pending) (hok : s.Alone a)
    (hn : s.next codec a = some s') : ∃ done' pending', Framed codec s' done' pending' := by
  cases a with
  | encode v =>
    cases h.settled.mp hok
    exact ⟨done, some v, h.encode hn⟩
  | resume k =>
    cases hk : s.calls[k]? with
    | none =>
      rw [next, hk] at hn
      cases hn
    | some c =>
      obtain ⟨v, phase⟩ := c
      cases phase with
      | lenPrefix =>
        cases ((h.between k v).mp hk).2
        exact ⟨done ++ [v], none, h.body hk hn⟩
      | body =>
        rw [next, hk] at hn
        cases hn
        exact ⟨done, pending, h.returned hk⟩
      | returned =>
        rw [next, hk] at hn
        cases hn
      | threw =>
        rw [next, hk] at hn
        cases hn

theorem write_puts (s : Writing V) (k : Nat) (isBody : Bool) (bytes : List UInt8)
    (calls : Phase → List (Encoding V)) : s.puts <+: (s.write k isBody bytes calls).puts := by
  rw [write]
  split
  · exact List.prefix_append _ _
  · exact List.prefix_rfl

theorem next_puts (hn : s.next codec a = some s') : s.puts <+: s'.puts := by
  cases a with
  | encode v =>
    cases hn
    exact write_puts s _ _ _ _
  | resume k =>
    rw [next] at hn
    split at hn
    · cases hn
      exact write_puts s _ _ _ _
    · cases hn
      exact List.prefix_rfl
    · cases hn

/-- No step mends frames that are mixed. -/
theorem Unmixed.before (h : s'.Unmixed) (hn : s.next codec a = some s') : s.Unmixed := by
  obtain ⟨more, hmore⟩ := next_puts hn
  rw [Unmixed, ← hmore] at h
  exact List.IsChain.left_of_append h

theorem Framed.of_run {ch : Chan} (heof : ch.sentEOF = false) (hclose : ch.sentClose = false)
    (run : Run (next codec) Alone (Writing.start ch) s) :
    ∃ done pending, Framed codec s done pending := by
  induction run with
  | start => exact ⟨[], none, .start codec heof hclose⟩
  | step a _ hok hn ih =>
    obtain ⟨done, pending, h⟩ := ih
    exact h.step hok hn

/-- The steps of a run that leaves the frames unmixed are all taken alone. -/
theorem Unmixed.alone {ch : Chan} (heof : ch.sentEOF = false) (hclose : ch.sentClose = false)
    (run : Run (next codec) anyStep (Writing.start ch) s) (h : s.Unmixed) :
    Run (next codec) Alone (Writing.start ch) s := by
  induction run with
  | start => exact .start
  | @step s s' a _ _ hn ih =>
    have hrun := ih (h.before hn)
    refine .step a hrun ?_ hn
    obtain ⟨done, pending, hf⟩ := Framed.of_run heof hclose hrun
    cases a with
    | encode v => exact hf.settled.mpr ((hf.unmixed_encode hn).mp h)
    | resume k => exact trivial

theorem Framed.sent_prefix (h : Framed codec s done pending) : s.sent <+: frames codec s.values := by
  rw [h.sent, h.values, frames, frames, List.flatMap_append, List.prefix_append_right_inj]
  cases pending with
  | none => exact List.nil_prefix
  | some v => simp [frame_eq]

theorem Framed.sent_settled (h : Framed codec s done pending) (hs : s.Settled) :
    s.sent = frames codec s.values := by
  cases h.settled.mp hs
  rw [h.sent, h.values]
  simp

end Framed

/-- What the peer's read loop makes of the bytes written: it gives the values out in order, and
once all has come in that a settled writer wrote, every `decode` that has a value gets it. -/
def PeerReads (codec : Codec V) (s : Writing V) : Prop :=
  ∀ (peer : Channel Unit) (w : World V Unit), peer.Unread [] → peer.readers = [] →
    Run (Rpc.step codec) (Carries s.sent) (Rpc.start peer [] (-1)) w →
    Delivered codec s.values (-1) w ∧
      (s.Settled → w.arrived = s.sent →
        (w.resume codec = none → Complete codec s.values (-1) w) ∧
        ∃ w', Run (Rpc.step codec) ByItself w w' ∧ w'.resume codec = none ∧ w'.calls = w.calls ∧
          Complete codec s.values (-1) w')

theorem Framed.peerReads {codec : Codec V} {s : Writing V} {done : List V} {pending : Option V}
    (h : Framed codec s done pending) (hvs : ∀ v ∈ s.values, Framable codec v) :
    s.PeerReads codec := by
  intro peer w hpeer hr run
  have hstream : frames codec s.values ++ [] = frames codec s.values := List.append_nil _
  have hrun : Run (Rpc.step codec) (Carries (frames codec s.values ++ []))
      (Rpc.start peer [] (-1)) w := by
    refine run.weaken fun w a hok => ?_
    cases a with
    | arrive data => exact hstream.symm ▸ hok.trans h.sent_prefix
    | resume => exact trivial
    | decode => exact trivial
  obtain ⟨hdelivered, hrest⟩ :=
    frames_delivered codec s.values hvs [] (-1) (.inl rfl) hpeer hr List.nil_prefix hrun
  refine ⟨hdelivered, fun hs harrived => ?_⟩
  have hall : frames codec (served s.values (-1)) <+: w.arrived := by
    rw [harrived, h.sent_settled hs]
    exact List.prefix_rfl
  obtain ⟨hstop, w', run', hstop', hcalls, -, hcomplete⟩ := hrest hall
  exact ⟨hstop, w', run', hstop', hcalls, hcomplete⟩

/-- **Frames written at the same time.** Whatever the calls of `encode` on an open channel and the
order in which they go on: the frames are unmixed if and only if no call was made while another
stood between its two writes. Then the bytes written are the frames of the calls in their order, and
the peer's read loop gets just these values. -/
theorem frames_apart (codec : Codec V) {ch : Chan} (heof : ch.sentEOF = false)
    (hclose : ch.sentClose = false) {s : Writing V}
    (run : Run (next codec) anyStep (start ch) s) :
    (s.Unmixed ↔ Run (next codec) Alone (start ch) s) ∧
      (s.Unmixed → s.sent = s.puts.flatMap Put.bytes ∧ s.sent <+: frames codec s.values ∧
        (s.Settled → s.sent = frames codec s.values) ∧
        ((∀ v ∈ s.values, Framable codec v) → s.PeerReads codec)) := by
  have hiff : s.Unmixed ↔ Run (next codec) Alone (start ch) s := by
    refine ⟨fun h => h.alone heof hclose run, fun hrun => ?_⟩
    obtain ⟨done, pending, h⟩ := Framed.of_run heof hclose hrun
    exact h.unmixed
  refine ⟨hiff, fun hunmixed => ?_⟩
  obtain ⟨done, pending, h⟩ := Framed.of_run heof hclose (hiff.mp hunmixed)
  exact ⟨h.bytes, h.sent_prefix, h.sent_settled, h.peerReads⟩

theorem frames_byteCodec (vs : List UInt8) :
    frames byteCodec vs = vs.flatMap fun v => [0, 0, 0, 1, v] := by
  have hlen : beBytes 1 = [0, 0, 0, 1] := by decide
  have hframe : frame byteCodec = fun v => [0, 0, 0, 1, v] := by
    funext v
    rw [frame_eq]
    exact congrArg (· ++ [v]) hlen
  rw [frames, hframe]

/-- Two calls, the second made once the first has written its body. -/
theorem frames_apart_run : ∃ s : Writing UInt8,
    Run (next byteCodec) anyStep (start Session.new.outbound) s ∧
    s.values = [5, 6] ∧ s.sent = frames byteCodec [5, 6] ∧ s.PeerReads byteCodec := by
  obtain ⟨s, run, hs⟩ := Run.of_exec (next byteCodec) anyStep (start Session.new.outbound)
    [.encode 5, .resume 0, .encode 6, .resume 0, .resume 1]
    (fun s => decide (s.puts.IsChain Put.Follows ∧ s.values = [5, 6] ∧ s.Settled)) (by decide +kernel)
  simp only [decide_eq_true_eq] at hs
  obtain ⟨hunmixed, hvalues, hsettled⟩ := hs
  obtain ⟨-, -, hsent, hpeer⟩ :=
    (frames_apart byteCodec rfl rfl run).2 hunmixed
  exact ⟨s, run, hvalues, hvalues ▸ hsent hsettled, hpeer fun v _ => byteCodec_framable v⟩

/-- Two calls at the same time: both prefixes come first, and the peer reads a value that nobody
wrote. -/
theorem frames_mixed : ∃ s : Writing UInt8,
    Run (next byteCodec) anyStep (start Session.new.outbound) s ∧
    s.Settled ∧ s.values = [5, 6] ∧ (∀ vs, s.sent ≠ frames byteCodec vs) ∧
    ∃ w : World UInt8 Unit, Run (Rpc.step byteCodec) (Carries s.sent) (Rpc.start opened [] (-1)) w ∧
      w.resolved = [(0, 0)] := by
  obtain ⟨s, run, hs⟩ := Run.of_exec (next byteCodec) anyStep (start Session.new.outbound)
    [.encode 5, .encode 6, .resume 0, .resume 1]
    (fun s => decide (s.sent = [0, 0, 0, 1, 0, 0, 0, 1, 5, 6] ∧ s.values = [5, 6] ∧ s.Settled))
    (by decide +kernel)
  simp only [decide_eq_true_eq] at hs
  obtain ⟨hsent, hvalues, hsettled⟩ := hs
  refine ⟨s, run, hsettled, hvalues, fun vs hvs => ?_, ?_⟩
  · -- behind the first prefix and a byte there would be another prefix
    rw [hsent, frames_byteCodec] at hvs
    cases vs with
    | nil => cases hvs
    | cons v vs => cases vs <;> simp at hvs
  · rw [hsent]
    obtain ⟨w, hrun, hw⟩ := Run.of_exec (Rpc.step byteCodec)
      (Carries [0, 0, 0, 1, 0, 0, 0, 1, 5, 6]) (Rpc.start opened [] (-1))
      [.decode, .arrive [0, 0, 0, 1, 0, 0, 0, 1, 5, 6], .resume, .resume, .resume]
      (fun w => decide (w.resolved = [(0, 0)])) (by decide +kernel)
    exact ⟨w, hrun, of_decide_eq_true hw⟩

end Writing

end Qtalk.Js.Rpc
