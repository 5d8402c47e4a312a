import Qtalk.Js.FrameCodec

/-!
# A hijacked channel

`Respond` and `responder.hijack` of `javascript/rpc/responder.ts`, from the first frame of
the request on: `Respond` decodes the call, the handler decodes its arguments, hijacks the
channel and reads from it. What `hijack` writes does not touch the reading side and is left
out. The `FrameCodec` of the request has no read limit, so behind the second frame its loop
calls `read(4)` on the channel that is the handler's by then. It keeps off the handler's
bytes exactly as long as that read is never tried with four bytes there (`hijacker_owns`).
-/

namespace Qtalk.Js.Rpc
open Qtalk.Lib

/-- `Respond` at work on a channel. `owned` says that `hijack` has returned it; `issued` counts
the handler's reads on it, which are known by the numbers from 1 on, and `answers` are
those that have resolved to data, in this order. -/
structure Responding (V ω : Type) where
  world : World V ω
  owned : Bool
  issued : Nat
  answers : List (Nat × List UInt8)
  deriving DecidableEq, Repr

namespace Responding

inductive Act where
  /-- the read loop of the codec goes on -/
  | resume
  /-- a data message comes in -/
  | arrive (data : List UInt8)
  /-- `codec.decode()`, by `Respond` and then by the handler -/
  | decode
  /-- `hijack` returns the channel -/
  | hijack
  /-- the handler calls `read(len)` on it -/
  | read (len : Nat)
  deriving DecidableEq, Repr

variable {V ω : Type}

/-- The promise of a read of the handler is resolved. -/
def answer (r : Responding V ω) (p : Nat) (res : ReadResult) : Responding V ω :=
  match res with
  | .data bs => { r with answers := r.answers ++ [(p, bs)] }
  | _ => r

/-- A data message that the channel accepts; promise 0 is the one the read loop awaits. -/
def arrive (r : Responding V ω) (data : List UInt8) : Option (Responding V ω) :=
  match r.world.channel.handleData data.length data with
  | .error _ => none
  | .ok (woken, channel) =>
    let r := { r with world := { r.world with channel, arrived := r.world.arrived ++ data } }
    match woken with
    | none => some r
    | some (p, res) =>
      if p = 0 then some { r with world := r.world.finish (r.world.fc.readLoop.wake res) }
      else some (r.answer p res)

/-- `channel.read(len)`. -/
def read (r : Responding V ω) (len : Nat) : Responding V ω :=
  let p := r.issued + 1
  let (res, channel) := r.world.channel.tryRead p len
  { r with world := { r.world with channel }, issued := p }.answer p res

/-- Each `decode` is awaited before the next step of `Respond` and the handler. -/
def step (codec : Codec V) (r : Responding V ω) : Act → Option (Responding V ω)
  | .resume => (r.world.resume codec).map fun world => { r with world }
  | .arrive data => r.arrive data
  | .decode =>
    if r.world.calls < 2 ∧ r.world.resolved.length = r.world.calls then
      some { r with world := { r.world.decode r.world.calls with calls := r.world.calls + 1 } }
    else none
  | .hijack =>
    if r.owned = false ∧ r.world.resolved.length = 2 then some { r with owned := true } else none
  | .read len => if r.owned then some (r.read len) else none

/-- `Respond` on a channel where `bs` came in already. -/
def start (channel : Channel ω) (bs : List UInt8) : Responding V ω :=
  { world := Rpc.start channel bs (-1), owned := false, issued := 0, answers := [] }

/-- What the handler has read, in the order its reads were answered. -/
def bytes (r : Responding V ω) : List UInt8 := r.answers.flatMap Prod.snd

/-- The channel is the handler's: the codec has taken bytes of the request alone, what came
behind it has been read by the handler or is still there, and no read of the handler waits
for bytes that are there. -/
structure Belongs (codec : Codec V) (vs : List V) (r : Responding V ω) : Prop where
  exact : ∃ taken unread, r.world.channel.readBuf = some unread ∧
    r.world.arrived = taken ++ (r.bytes ++ unread) ∧ taken <+: frames codec vs ∧
    (r.owned = true → taken = frames codec vs)
  prompt : ∀ p len unread, (p, len) ∈ r.world.channel.readers → p ≠ 0 →
    r.world.channel.readBuf = some unread → unread.length < len

/-- The data that comes in is cut from the stream. -/
def Carries (stream : List UInt8) (r : Responding V ω) : Act → Prop
  | .arrive data => r.world.arrived ++ data <+: stream
  | _ => True

/-- The bytes in the channel. -/
def unread (r : Responding V ω) : Nat := (r.world.channel.readBuf.getD []).length

/-- A message that leaves `n` bytes in the channel wakes the first of these reads: it is not
the loop's `read(4)` with four bytes there, and of the others none of the handler's finds
enough in what it leaves. -/
def Spares (loop : Bool) (n : Nat) : List (Nat × Nat) → Prop
  | [] => True
  | (p, len) :: rest =>
    (p = 0 → loop = true → n < 4) ∧
      ∀ e ∈ rest, e.1 ≠ 0 → (if len ≤ n then n - len else n) < e.2

theorem spares_cons (loop : Bool) (n p len : Nat) (rest : List (Nat × Nat)) :
    Spares loop n ((p, len) :: rest) ↔ (p = 0 → loop = true → n < 4) ∧
      ∀ e ∈ rest, e.1 ≠ 0 → (if len ≤ n then n - len else n) < e.2 := Iff.rfl

/-- The step leaves the handler what is the handler's. The read loop is past the request once it
has counted two frames. -/
def Leaves (r : Responding V ω) : Act → Prop
  | .resume => r.world.fc.readLoop = .yielded → 2 ≤ r.world.fc.readCount → r.unread < 4
  | .arrive data =>
    Spares (decide (2 ≤ r.world.fc.readCount)) (r.unread + data.length) r.world.channel.readers
  | _ => True

/-! ## Inside the request -/

/-- The loop has not taken the whole request. -/
structure Early (codec : Codec V) (vs : List V) (tail : List UInt8) (r : Responding V ω) : Prop where
  fresh : r.owned = false ∧ r.answers = []
  serving : ∃ unread held, Serving codec vs r.world unread held
  limit : r.world.fc.readLimit = -1
  more : r.world.fc.readCount < vs.length
  cut : r.world.arrived <+: frames codec vs ++ tail

/-- The request is taken, and nothing behind it: the loop stands between two frames. -/
structure Late (codec : Codec V) (vs : List V) (r : Responding V ω) (unread : List UInt8) : Prop where
  buffered : r.world.channel.Unread unread
  split : r.world.arrived = frames codec vs ++ (r.bytes ++ unread)
  count : r.world.fc.readCount = vs.length
  loop : (r.world.fc.readLoop = .yielded ∧ ∀ e ∈ r.world.channel.readers, e.1 ≠ 0) ∨
    r.world.fc.readLoop = .readingLen .pending
  four : ∀ e ∈ r.world.channel.readers, e.1 = 0 → e.2 = 4
  parked : ∀ e ∈ r.world.channel.readers, e.1 ≠ 0 → unread.length < e.2

variable {codec : Codec V} {vs : List V} {tail : List UInt8} {r r' : Responding V ω}
  {unread : List UInt8}

/-- The loop's read is the only one before the channel is handed over. -/
theorem Midframe.alone {unread held : List UInt8} {readLoop : ReadLoop}
    {readers : List (Nat × Nat)} (h : Midframe unread readLoop readers held) :
    readers = [] ∨ ∃ len, readers = [(0, len)] := by
  cases h with
  | waitLen hu => exact .inr ⟨_, rfl⟩
  | waitBody hbs hu => exact .inr ⟨_, rfl⟩
  | yielded => exact .inl rfl
  | gotLen hbs => exact .inl rfl
  | gotBody hbs hb => exact .inl rfl
  | returned => exact .inl rfl

theorem Midframe.readers_zero {unread held : List UInt8} {readLoop : ReadLoop}
    {readers : List (Nat × Nat)} (h : Midframe unread readLoop readers held) :
    ∀ e ∈ readers, e.1 = 0 := by
  intro e he
  rcases Midframe.alone h with rfl | ⟨len, rfl⟩
  · cases he
  · rw [List.mem_singleton.mp he]

/-- A loop without a limit does not return. -/
theorem Early.running (h : Early codec vs tail r) : r.world.fc.readLoop ≠ .returned := by
  obtain ⟨unread, held, hs⟩ := h.serving
  intro hl
  have := (hs.limit.mp hl).1
  rw [h.limit] at this
  omega

theorem Early.belongs (h : Early codec vs tail r) (hvs : ∀ v ∈ vs, Framable codec v) :
    Belongs codec vs r := by
  obtain ⟨unread, held, hs⟩ := h.serving
  refine ⟨⟨frames codec (vs.take r.world.fc.readCount) ++ held, unread, hs.buffered.buf, ?_, ?_, ?_⟩,
    ?_⟩
  · rw [hs.taken, bytes, h.fresh.2, List.flatMap_nil, List.nil_append, List.append_assoc]
  · rcases hs.next h.cut (.inl h.more) h.running with ⟨hall, -⟩ | ⟨v, hv, hframe⟩
    · have := h.more
      omega
    · have next_frame := frames_take_mono codec vs (m := r.world.fc.readCount + 1) h.more
      rw [List.take_length] at next_frame
      refine List.IsPrefix.trans ?_ next_frame
      rw [frames_take_succ hv, List.prefix_append_right_inj]
      exact hs.held_frame hvs hv hframe
  · intro howned
    rw [h.fresh.1] at howned
    cases howned
  · intro p len unread hmem hp
    exact absurd (Midframe.readers_zero hs.mid _ hmem) hp

/-- Inside the request every step leaves the handler what is the handler's. -/
theorem Early.leaves (h : Early codec vs tail r) (hlen : vs.length = 2) (a : Act) : Leaves r a := by
  have hcount : ¬ 2 ≤ r.world.fc.readCount := by
    have := h.more
    omega
  cases a with
  | resume => exact fun _ h => absurd h hcount
  | arrive data =>
    obtain ⟨unread, held, hs⟩ := h.serving
    unfold Leaves
    rcases Midframe.alone hs.mid with hr | ⟨len, hr⟩ <;> rw [hr] <;> simp [Spares, hcount]
  | decode => exact trivial
  | hijack => exact trivial
  | read len => exact trivial

/-- Up to the end of the request the message is taken as by the codec alone. -/
theorem Early.arrive_eq (h : Early codec vs tail r) (data : List UInt8) :
    r.arrive data = (r.world.arrive data).map fun world => { r with world } := by
  obtain ⟨unread, held, hs⟩ := h.serving
  unfold arrive World.arrive
  cases hd : r.world.channel.handleData data.length data with
  | error e => rfl
  | ok res =>
    obtain ⟨woken, channel⟩ := res
    cases woken with
    | none => rfl
    | some woken =>
      obtain ⟨p, res⟩ := woken
      obtain ⟨-, -, ⟨-, hn, -⟩ | ⟨p', len, readers, hr, hw, -⟩⟩ := Channel.handleData_ok hd
      · cases hn
      · have hp : p' = 0 := Midframe.readers_zero hs.mid (p', len) (hr ▸ List.mem_cons_self)
        cases hw
        dsimp only
        rw [if_pos hp]
        rfl

/-- Where the loop has counted the last frame it stands behind it. -/
theorem resume_count {w w' : World V ω} (hs : w.resume codec = some w') :
    w'.fc.readCount = w.fc.readCount ∨ w'.fc.readLoop = .threw ∨ w'.fc.readLoop = .returned ∨
      w'.fc.readLoop = .yielded := by
  unfold World.resume at hs
  split at hs
  · cases hs
    exact .inl rfl
  · cases hs
    exact .inl rfl
  · split at hs
    · cases hs
      exact .inl rfl
    · cases hs
      exact .inl rfl
  · cases hs
    exact .inl rfl
  · dsimp only at hs
    split at hs
    · cases hs
      exact .inr (.inl rfl)
    · cases hs
      refine .inr (.inr ?_)
      unfold World.value FrameCodec.iterate
      dsimp only
      split
      · exact .inl rfl
      · exact .inr rfl
  · cases hs

/-- Between two frames behind the whole request. -/
theorem Late.of_serving {held : List UInt8} (hs : Serving codec vs r.world unread held)
    (hcount : r.world.fc.readCount = vs.length) (hl : r.world.fc.readLoop = .yielded)
    (ha : r.answers = []) : Late codec vs r unread := by
  have hmid := hs.mid
  rw [hl] at hmid
  generalize hr : r.world.channel.readers = readers at hmid
  cases hmid with
  | yielded =>
    refine ⟨hs.buffered, ?_, hcount, .inl ⟨hl, ?_⟩, ?_, ?_⟩
    · rw [hs.taken, hcount, List.take_length, bytes, ha]
      rfl
    all_goals
      rw [hr]
      exact fun e he => absurd he List.not_mem_nil

/-- Bytes behind the request are neither with the handler nor in the channel. -/
theorem not_belongs_taken (hbuf : r.world.channel.readBuf = some unread)
    (hless : (frames codec vs).length + (r.bytes.length + unread.length) < r.world.arrived.length) :
    ¬ Belongs codec vs r := by
  intro h
  obtain ⟨taken, unread', hbuf', harrived, hpre, -⟩ := h.exact
  rw [hbuf] at hbuf'
  obtain rfl := Option.some.inj hbuf'
  have := hpre.length_le
  rw [harrived, List.length_append, List.length_append] at hless
  omega

/-- A read of the handler waits for bytes that are there. -/
theorem not_belongs_parked {p len : Nat} (hbuf : r.world.channel.readBuf = some unread)
    (hmem : (p, len) ∈ r.world.channel.readers) (hp : p ≠ 0) (hle : len ≤ unread.length) :
    ¬ Belongs codec vs r := by
  intro h
  have := h.prompt p len unread hmem hp hbuf
  omega

theorem Late.belongs (h : Late codec vs r unread) : Belongs codec vs r := by
  refine ⟨⟨frames codec vs, unread, h.buffered.buf, h.split, List.prefix_rfl, fun _ => rfl⟩, ?_⟩
  intro p len unread' hmem hp hbuf
  rw [h.buffered.buf] at hbuf
  obtain rfl := Option.some.inj hbuf
  exact h.parked _ hmem hp

theorem arrive_count {w w' : World V ω} {data : List UInt8} (hs : w.arrive data = some w') :
    w'.fc.readCount = w.fc.readCount := by
  unfold World.arrive at hs
  split at hs
  · cases hs
  · dsimp only at hs
    split at hs
    · cases hs
      rfl
    · cases hs
      rfl

/-- A step inside the request stays there, or has taken the last byte of it. -/
theorem Early.step (h : Early codec vs tail r) (hvs : ∀ v ∈ vs, Framable codec v)
    (hlen : vs.length = 2) {a : Act} (hok : Carries (frames codec vs ++ tail) r a)
    (hs : step codec r a = some r') : Early codec vs tail r' ∨ ∃ unread, Late codec vs r' unread := by
  obtain ⟨unread, held, hserving⟩ := h.serving
  cases a with
  | resume =>
    obtain ⟨w', hw, rfl⟩ := Option.map_eq_some_iff.mp hs
    obtain ⟨unread', held', hs', harrived, hlimit, -⟩ := hserving.resume hvs h.cut (.inl h.more) hw
    have limit : w'.fc.readLimit = -1 := hlimit.trans h.limit
    have cut : w'.arrived <+: frames codec vs ++ tail := harrived ▸ h.cut
    rcases Nat.lt_or_ge w'.fc.readCount vs.length with more | all
    · exact .inl ⟨h.fresh, ⟨unread', held', hs'⟩, limit, more, cut⟩
    · have more := h.more
      have hcount : w'.fc.readCount = vs.length := Nat.le_antisymm hs'.count all
      refine .inr ⟨unread', Late.of_serving hs' hcount ?_ h.fresh.2⟩
      rcases resume_count hw with same | threw | returned | yielded
      · omega
      · have hmid := hs'.mid
        rw [threw] at hmid
        cases hmid
      · have := (hs'.limit.mp returned).1
        omega
      · exact yielded
  | arrive data =>
    have hs : r.arrive data = some r' := hs
    rw [h.arrive_eq] at hs
    obtain ⟨w', hw, rfl⟩ := Option.map_eq_some_iff.mp hs
    obtain ⟨unread', held', hs', harrived, hlimit⟩ := hserving.arrive hw
    exact .inl ⟨h.fresh, ⟨unread', held', hs'⟩, hlimit.trans h.limit, arrive_count hw ▸ h.more,
      harrived ▸ hok⟩
  | decode =>
    simp only [Responding.step] at hs
    split at hs
    · cases hs
      obtain ⟨-, harrived, -, hcount, hlimit, -⟩ := decode_frame r.world r.world.calls
      exact .inl ⟨h.fresh, ⟨unread, held, hserving.decode⟩, hlimit.trans h.limit, hcount ▸ h.more,
        harrived ▸ h.cut⟩
    · cases hs
  | hijack =>
    simp only [Responding.step] at hs
    split at hs
    · next both =>
      -- both values would have to be decoded
      have decoded := congrArg List.length hserving.handed
      have more := h.more
      have two := both.2
      rw [List.length_append, List.length_map, List.length_take] at decoded
      omega
    · cases hs
  | read len =>
    simp only [Responding.step, h.fresh.1] at hs
    cases hs

/-! ## Behind the request -/

theorem unread_eq (h : r.world.channel.Unread unread) : r.unread = unread.length := by
  unfold Responding.unread
  rw [h.buf]
  rfl

/-- The loop asks for the next length prefix. -/
theorem Late.resume (h : Late codec vs r unread)
    (hs : step codec r .resume = some r') :
    if unread.length < 4 then Late codec vs r' unread else ¬ Belongs codec vs r' := by
  obtain ⟨w', hw, rfl⟩ := Option.map_eq_some_iff.mp hs
  unfold World.resume at hw
  rcases h.loop with ⟨hl, hr⟩ | hl
  · rw [hl] at hw
    cases hw
    split
    · next hlt =>
      have parked := h.buffered.parked 0 hlt
      unfold World.read
      rw [parked]
      refine ⟨⟨h.buffered.buf, h.buffered.more⟩, h.split, h.count, .inr rfl, ?_, ?_⟩
      · intro e he h0
        rcases List.mem_append.mp he with he | he
        · exact absurd h0 (hr e he)
        · rw [List.mem_singleton.mp he]
      · intro e he h0
        rcases List.mem_append.mp he with he | he
        · exact h.parked e he h0
        · rw [List.mem_singleton.mp he] at h0
          exact absurd rfl h0
    · next hge =>
      have served := h.buffered.served 0 (by decide : 0 < 4) (Nat.le_of_not_lt hge)
      unfold World.read
      rw [served]
      refine not_belongs_taken rfl ?_
      have all := congrArg List.length h.split
      simp only [List.length_append, List.length_drop] at all ⊢
      change _ + (r.bytes.length + _) < r.world.arrived.length
      omega
  · rw [hl] at hw
    cases hw

/-- After the first read has been tried with `unread'` left, the others are to go on waiting. -/
theorem Late.rest (h : Late codec vs r unread) (r' : Responding V ω) {p len : Nat} {rest : List (Nat × Nat)}
    (hr : r.world.channel.readers = (p, len) :: rest) {unread' : List UInt8}
    (hbuf : r'.world.channel.Unread unread')
    (hsplit : r'.world.arrived = frames codec vs ++ (r'.bytes ++ unread'))
    (hcount : r'.world.fc.readCount = r.world.fc.readCount)
    (hloop : r'.world.fc.readLoop = r.world.fc.readLoop)
    (hreaders : r'.world.channel.readers = rest ∨
      r'.world.channel.readers = rest ++ [(p, len)] ∧ unread'.length < len) :
    ((∀ e ∈ rest, e.1 ≠ 0 → unread'.length < e.2) → Late codec vs r' unread') ∧
      ((¬ ∀ e ∈ rest, e.1 ≠ 0 → unread'.length < e.2) → ¬ Belongs codec vs r') := by
  have mem : ∀ e ∈ r'.world.channel.readers, e ∈ rest ∨ e = (p, len) ∧ unread'.length < len := by
    intro e he
    rcases hreaders with heq | ⟨heq, hlt⟩
    · exact .inl (heq ▸ he)
    · rw [heq, List.mem_append, List.mem_singleton] at he
      exact he.imp_right fun he => ⟨he, hlt⟩
  have before : ∀ e ∈ r'.world.channel.readers, e ∈ r.world.channel.readers := by
    intro e he
    rw [hr]
    rcases mem e he with he | ⟨rfl, -⟩
    · exact List.mem_cons_of_mem _ he
    · exact List.mem_cons_self
  constructor
  · intro waits
    refine ⟨hbuf, hsplit, hcount.trans h.count, ?_, fun e he => h.four e (before e he), ?_⟩
    · rw [hloop]
      exact h.loop.imp_left fun hl => ⟨hl.1, fun e he => hl.2 e (before e he)⟩
    · intro e he h0
      rcases mem e he with he | ⟨rfl, hlt⟩
      · exact waits e he h0
      · exact hlt
  · intro waits
    obtain ⟨e, he, h0, hle⟩ : ∃ e ∈ rest, e.1 ≠ 0 ∧ e.2 ≤ unread'.length := by
      by_contra none_found
      refine waits fun e he h0 => Nat.lt_of_not_le fun hle => none_found ⟨e, he, h0, hle⟩
    have hmem : (e.1, e.2) ∈ r'.world.channel.readers := by
      rcases hreaders with heq | ⟨heq, -⟩
      · exact heq ▸ he
      · exact heq ▸ List.mem_append_left _ he
    exact not_belongs_parked hbuf.buf hmem h0 hle

/-- The channel and the message's bytes, with everything else as it was. -/
def took (r : Responding V ω) (channel : Channel ω) (data : List UInt8) : Responding V ω :=
  { r with world := { r.world with channel, arrived := r.world.arrived ++ data } }

/-- A read has been tried with the message: the loop's or one of the handler's. -/
def Tried (r r' : Responding V ω) (data : List UInt8) (p : Nat) (res : ReadResult) (channel : Channel ω) :
    Prop :=
  p = 0 ∧ r' = { r.took channel data with
      world := (r.took channel data).world.finish (r.world.fc.readLoop.wake res) } ∨
    p ≠ 0 ∧ r' = (r.took channel data).answer p res

/-- A message wakes the first read that waits. -/
theorem arrive_cases {data : List UInt8} (hs : r.arrive data = some r') :
    (r.world.channel.readers = [] ∧ r' = r.took (r.world.channel.take data.length data) data) ∨
      ∃ p len rest res channel, r.world.channel.readers = (p, len) :: rest ∧
        (r.world.channel.taken data.length data rest).tryRead p len = (res, channel) ∧
        r.Tried r' data p res channel := by
  unfold Responding.arrive at hs
  cases hd : r.world.channel.handleData data.length data with
  | error e =>
    rw [hd] at hs
    cases hs
  | ok res =>
    obtain ⟨woken, channel⟩ := res
    rw [hd] at hs
    obtain ⟨-, -, ⟨hr, rfl, rfl⟩ | ⟨p, len, rest, hr, rfl, rfl⟩⟩ := Channel.handleData_ok hd
    · cases hs
      exact .inl ⟨hr, rfl⟩
    · refine .inr ⟨p, len, rest, _, _, hr, rfl, ?_⟩
      dsimp only at hs
      by_cases hp : p = 0
      · rw [if_pos hp] at hs
        cases hs
        exact .inl ⟨hp, rfl⟩
      · rw [if_neg hp] at hs
        cases hs
        exact .inr ⟨hp, rfl⟩

theorem Late.leaves_arrive (h : Late codec vs r unread) (hlen : vs.length = 2) (data : List UInt8) :
    Leaves r (.arrive data) ↔ Spares true (unread ++ data).length r.world.channel.readers := by
  have past : decide (2 ≤ r.world.fc.readCount) = true := decide_eq_true (by rw [h.count, hlen])
  rw [List.length_append, ← unread_eq h.buffered, ← past]
  exact Iff.rfl

theorem Late.whole (h : Late codec vs r unread) (data : List UInt8) :
    r.world.arrived ++ data = frames codec vs ++ (r.bytes ++ (unread ++ data)) := by
  rw [h.split, List.append_assoc, List.append_assoc]

/-- What a message leaves in the buffer for the reads. -/
theorem Late.buffer (h : Late codec vs r unread) (data : List UInt8) (rest : List (Nat × Nat)) :
    (r.world.channel.taken data.length data rest).Unread (unread ++ data) :=
  ⟨by rw [Channel.taken, h.buffered.buf]; rfl, h.buffered.more⟩

/-- The first read has too few bytes and goes to the end of the queue. -/
theorem Late.parks (h : Late codec vs r unread) {data : List UInt8} {p len : Nat}
    {rest : List (Nat × Nat)} {res : ReadResult} {channel : Channel ω}
    (hr : r.world.channel.readers = (p, len) :: rest)
    (htry : (r.world.channel.taken data.length data rest).tryRead p len = (res, channel))
    (htried : r.Tried r' data p res channel) (hlt : (unread ++ data).length < len) :
    (Spares true (unread ++ data).length ((p, len) :: rest) → ∃ unread, Late codec vs r' unread) ∧
      (¬ Spares true (unread ++ data).length ((p, len) :: rest) → ¬ Belongs codec vs r') := by
  have hc := h.buffer data rest
  have hfirst : (p, len) ∈ r.world.channel.readers := hr ▸ List.mem_cons_self
  rw [hc.parked p hlt, Prod.mk.injEq] at htry
  obtain ⟨rfl, hch⟩ := htry
  have hbuf : channel.Unread (unread ++ data) := by
    rw [← hch]
    exact ⟨hc.buf, hc.more⟩
  have hreaders : channel.readers = rest ++ [(p, len)] := by
    rw [← hch]
    rfl
  have few : p = 0 → true = true → (unread ++ data).length < 4 := fun hp _ =>
    h.four _ hfirst hp ▸ hlt
  rw [spares_cons, if_neg (Nat.not_le_of_lt hlt), and_iff_right few]
  rcases htried with ⟨hp, rfl⟩ | ⟨hp, rfl⟩
  · have hl : r.world.fc.readLoop = .readingLen .pending := by
      rcases h.loop with ⟨-, hl⟩ | hl
      · exact absurd hp (hl _ hfirst)
      · exact hl
    have hwake : r.world.fc.readLoop.wake .pending = r.world.fc.readLoop := by
      rw [hl]
      rfl
    have rest_waits := h.rest { r.took channel data with
        world := (r.took channel data).world.finish (r.world.fc.readLoop.wake .pending) }
      hr hbuf (h.whole data) rfl hwake (.inr ⟨hreaders, hlt⟩)
    exact ⟨fun waits => ⟨_, rest_waits.1 waits⟩, rest_waits.2⟩
  · have rest_waits := h.rest (r.took channel data) hr hbuf (h.whole data) rfl rfl
      (.inr ⟨hreaders, hlt⟩)
    exact ⟨fun waits => ⟨_, rest_waits.1 waits⟩, rest_waits.2⟩

/-- The first read is answered; the loop's takes four bytes of the handler's. -/
theorem Late.serves (h : Late codec vs r unread) {data : List UInt8} {p len : Nat}
    {rest : List (Nat × Nat)} {res : ReadResult} {channel : Channel ω}
    (hr : r.world.channel.readers = (p, len) :: rest)
    (htry : (r.world.channel.taken data.length data rest).tryRead p len = (res, channel))
    (htried : r.Tried r' data p res channel) (hle : len ≤ (unread ++ data).length) :
    (Spares true (unread ++ data).length ((p, len) :: rest) → ∃ unread, Late codec vs r' unread) ∧
      (¬ Spares true (unread ++ data).length ((p, len) :: rest) → ¬ Belongs codec vs r') := by
  have hc := h.buffer data rest
  have hfirst : (p, len) ∈ r.world.channel.readers := hr ▸ List.mem_cons_self
  have hpos : 0 < len := by
    by_cases hp : p = 0
    · have := h.four _ hfirst hp
      dsimp only at this
      omega
    · have := h.parked _ hfirst hp
      dsimp only at this
      omega
  rw [hc.served p hpos hle, Prod.mk.injEq] at htry
  obtain ⟨rfl, hch⟩ := htry
  have hbuf : channel.Unread ((unread ++ data).drop len) := by
    rw [← hch]
    exact ⟨rfl, hc.more⟩
  have hreaders : channel.readers = rest := by
    rw [← hch]
    rfl
  rw [spares_cons, if_pos hle]
  rcases htried with ⟨hp, rfl⟩ | ⟨hp, rfl⟩
  · have hfour := h.four _ hfirst hp
    dsimp only at hfour
    refine ⟨fun hspares => ?_, fun _ => ?_⟩
    · have := hspares.1 hp rfl
      omega
    · refine not_belongs_taken hbuf.buf ?_
      have all := congrArg List.length (h.whole data)
      change _ < (r.world.arrived ++ data).length
      rw [all, List.length_append, List.length_append, List.length_drop]
      change _ + (r.bytes.length + _) < _
      omega
  · have few : p = 0 → true = true → (unread ++ data).length < 4 := fun h0 _ => absurd h0 hp
    rw [and_iff_right few, ← List.length_drop]
    have hsplit : r.world.arrived ++ data = frames codec vs ++
        ((r.answers ++ [(p, (unread ++ data).take len)]).flatMap Prod.snd ++
          (unread ++ data).drop len) := by
      rw [h.whole data, List.flatMap_append, List.flatMap_singleton, List.append_assoc,
        List.take_append_drop]
      rfl
    have rest_waits := h.rest
      ((r.took channel data).answer p (.data ((unread ++ data).take len))) hr hbuf hsplit
      rfl rfl (.inl hreaders)
    exact ⟨fun waits => ⟨_, rest_waits.1 waits⟩, rest_waits.2⟩

/-- Data comes in behind the request. -/
theorem Late.arrive (h : Late codec vs r unread) (hlen : vs.length = 2) {data : List UInt8}
    (hs : r.arrive data = some r') :
    (Leaves r (.arrive data) → ∃ unread, Late codec vs r' unread) ∧
      (¬ Leaves r (.arrive data) → ¬ Belongs codec vs r') := by
  rw [h.leaves_arrive hlen]
  rcases arrive_cases hs with ⟨hr, rfl⟩ | ⟨p, len, rest, res, channel, hr, htry, htried⟩
  · rw [hr]
    refine ⟨fun _ => ⟨unread ++ data, h.buffered.take data.length data, h.whole data, h.count, h.loop,
      h.four, ?_⟩, fun hn => absurd trivial hn⟩
    intro e he
    have he : e ∈ r.world.channel.readers := he
    rw [hr] at he
    cases he
  · rw [hr]
    rcases Nat.lt_or_ge (unread ++ data).length len with hlt | hle
    · exact h.parks hr htry htried hlt
    · exact h.serves hr htry htried hle

/-- A read of the handler gets its bytes, or waits because they are not there. -/
theorem Late.read (h : Late codec vs r unread) (len : Nat) :
    ∃ unread, Late codec vs (r.read len) unread := by
  have keeps : ∀ (channel : Channel ω) (bs left : List UInt8), channel.Unread left →
      bs ++ left = unread → channel.readers = r.world.channel.readers →
      Late codec vs (Responding.answer { r with
        world := { r.world with channel }, issued := r.issued + 1 } (r.issued + 1) (.data bs)) left := by
    intro channel bs left hbuf heq hreaders
    refine ⟨hbuf, ?_, h.count, ?_, ?_, ?_⟩
    · change r.world.arrived = _ ++ ((r.answers ++ [(r.issued + 1, bs)]).flatMap Prod.snd ++ left)
      rw [h.split, ← heq, List.flatMap_append, List.flatMap_singleton, List.append_assoc]
      rfl
    · exact hreaders.symm ▸ h.loop
    · exact hreaders.symm ▸ h.four
    · intro e he h0
      have := h.parked e (hreaders ▸ he) h0
      have := congrArg List.length heq
      rw [List.length_append] at this
      omega
  unfold Responding.read
  dsimp only
  rcases Nat.lt_or_ge unread.length len with hlt | hle
  · rw [h.buffered.parked _ hlt]
    refine ⟨unread, ⟨h.buffered.buf, h.buffered.more⟩, h.split, h.count, ?_, ?_, ?_⟩
    · refine h.loop.imp_left fun hl => ⟨hl.1, fun e he => ?_⟩
      rcases List.mem_append.mp he with he | he
      · exact hl.2 e he
      · rw [List.mem_singleton.mp he]
        exact Nat.succ_ne_zero _
    · intro e he h0
      rcases List.mem_append.mp he with he | he
      · exact h.four e he h0
      · rw [List.mem_singleton.mp he] at h0
        cases h0
    · intro e he h0
      rcases List.mem_append.mp he with he | he
      · exact h.parked e he h0
      · rw [List.mem_singleton.mp he]
        exact hlt
  · rcases Nat.eq_zero_or_pos len with rfl | hpos
    · -- a read without a length takes all there is
      have all : r.world.channel.tryRead (r.issued + 1) 0
          = (.data unread, { r.world.channel with readBuf := some [] }) := by
        unfold Channel.tryRead
        rw [h.buffered.buf]
        dsimp only
        by_cases hnil : unread = []
        · have none_left : ¬ (([] : List UInt8).drop 0 = [] ∧ r.world.channel.gotEOF = true) := by
            rw [h.buffered.more]
            simp
          rw [hnil, if_neg (by simp), if_pos (Nat.zero_le _), if_neg none_left]
          rfl
        · rw [if_pos ⟨rfl, List.length_pos_iff.mpr hnil⟩]
      rw [all]
      exact ⟨[], keeps _ unread [] ⟨rfl, h.buffered.more⟩ (List.append_nil _) rfl⟩
    · rw [h.buffered.served _ hpos hle]
      exact ⟨_, keeps _ _ _ ⟨rfl, h.buffered.more⟩ (List.take_append_drop len unread) rfl⟩

/-- A step behind the request leaves the channel to the handler exactly if it meets the
condition. -/
theorem Late.step (h : Late codec vs r unread) (hlen : vs.length = 2) {a : Act}
    (hs : step codec r a = some r') :
    (Leaves r a → ∃ unread, Late codec vs r' unread) ∧ (¬ Leaves r a → ¬ Belongs codec vs r') := by
  cases a with
  | resume =>
    have hresume := h.resume hs
    have running : r.world.fc.readLoop = .yielded := by
      rcases h.loop with ⟨hl, -⟩ | hl
      · exact hl
      · simp only [Responding.step, World.resume, hl] at hs
        cases hs
    have past : 2 ≤ r.world.fc.readCount := by rw [h.count, hlen]
    have iff_few : Leaves r .resume ↔ unread.length < 4 := by
      rw [← unread_eq h.buffered]
      exact ⟨fun hl => hl running past, fun hl _ _ => hl⟩
    rw [iff_few]
    split at hresume
    · next hlt => exact ⟨fun _ => ⟨unread, hresume⟩, fun hn => absurd hlt hn⟩
    · next hge => exact ⟨fun hlt => absurd hlt hge, fun _ => hresume⟩
  | arrive data => exact h.arrive hlen hs
  | decode =>
    simp only [Responding.step] at hs
    split at hs
    · cases hs
      obtain ⟨hchannel, harrived, hloop, hcount, -⟩ := decode_frame r.world r.world.calls
      refine ⟨fun _ => ⟨unread, ⟨hchannel ▸ h.buffered, harrived.trans h.split,
        hcount.trans h.count, ?_, ?_, ?_⟩⟩, fun hn => absurd trivial hn⟩
      · dsimp only
        rw [hloop, hchannel]
        exact h.loop
      · dsimp only
        rw [hchannel]
        exact h.four
      · dsimp only
        rw [hchannel]
        exact h.parked
    · cases hs
  | hijack =>
    simp only [Responding.step] at hs
    split at hs
    · cases hs
      exact ⟨fun _ => ⟨unread, h.buffered, h.split, h.count, h.loop, h.four, h.parked⟩,
        fun hn => absurd trivial hn⟩
    · cases hs
  | read len =>
    simp only [Responding.step] at hs
    split at hs
    · cases hs
      exact ⟨fun _ => h.read len, fun hn => absurd trivial hn⟩
    · cases hs

/-! ## Runs -/

theorem Early.start {channel : Channel ω} {bs : List UInt8} (hc : channel.Unread bs)
    (hr : channel.readers = []) (hvs : 0 < vs.length) (hbs : bs <+: frames codec vs ++ tail) :
    Early codec vs tail (start channel bs) where
  fresh := ⟨rfl, rfl⟩
  serving := ⟨bs, [], Serving.start hc hr (-1)⟩
  limit := rfl
  more := hvs
  cut := hbs

instance (stream : List UInt8) : (r : Responding V ω) → (a : Act) → Decidable (Carries stream r a)
  | r, .arrive data => inferInstanceAs (Decidable (r.world.arrived ++ data <+: stream))
  | _, .resume => .isTrue trivial
  | _, .decode => .isTrue trivial
  | _, .hijack => .isTrue trivial
  | _, .read _ => .isTrue trivial

instance (loop : Bool) (n : Nat) : (readers : List (Nat × Nat)) → Decidable (Spares loop n readers)
  | [] => .isTrue trivial
  | (p, len) :: rest =>
    inferInstanceAs (Decidable ((p = 0 → loop = true → n < 4) ∧
      ∀ e ∈ rest, e.1 ≠ 0 → (if len ≤ n then n - len else n) < e.2))

instance : (r : Responding V ω) → (a : Act) → Decidable (Leaves r a)
  | r, .resume => inferInstanceAs
    (Decidable (r.world.fc.readLoop = .yielded → 2 ≤ r.world.fc.readCount → r.unread < 4))
  | r, .arrive data => inferInstanceAs (Decidable
    (Spares (decide (2 ≤ r.world.fc.readCount)) (r.unread + data.length) r.world.channel.readers))
  | _, .decode => .isTrue trivial
  | _, .hijack => .isTrue trivial
  | _, .read _ => .isTrue trivial

end Responding

end Qtalk.Js.Rpc
