import Qtalk.Js.Channel
import Qtalk.Lib.Runs

/-!
# The frame codec

`FrameCodec` of `javascript/rpc/codec.ts` over a channel that nobody else reads. Between
two awaits the code runs alone, so a step is the read loop going on from its await, data
coming in on the channel, or a call of `decode`; they interleave freely. The `k`-th call of
`decode` gets the `k`-th value, and a loop with a read limit takes no byte beyond its last
frame (`frames_delivered`).
-/

namespace Qtalk.Js.Rpc
open Qtalk.Lib

/-- `Codec`; `decode` may throw. -/
structure Codec (V : Type) where
  encode : V → List UInt8
  decode : List UInt8 → Option V

/-- What `FrameCodec.encode` writes on the channel. -/
def Codec.writes {V : Type} (codec : Codec V) (v : V) : List (List UInt8) :=
  let buf := codec.encode v
  let lenPrefix := setUint32 (List.replicate 4 0) 0 buf.length
  [lenPrefix, buf]

/-- The await at which `readLoop` stands, or how it came to an end. -/
inductive ReadLoop where
  /-- `await loopYield` -/
  | yielded
  /-- `await this.channel.read(4)` -/
  | readingLen (res : ReadResult)
  /-- `await this.channel.read(size)` -/
  | readingBody (res : ReadResult)
  | returned
  | threw
  deriving DecidableEq, Repr

/-- `FrameCodec`, without its channel and codec; a waiter is the number of a `decode` call. -/
structure FrameCodec (V : Type) where
  buf : List V
  waiters : List Nat
  readLimit : Int
  readCount : Nat
  readLoop : ReadLoop
  deriving DecidableEq, Repr

/-- A frame codec with its channel. `calls` counts the calls of `decode`, `resolved` are the
calls that have got a value, and `arrived` the bytes that came in on the channel. -/
structure World (V ω : Type) where
  channel : Channel ω
  fc : FrameCodec V
  calls : Nat
  resolved : List (Nat × V)
  arrived : List UInt8
  deriving DecidableEq, Repr

inductive Act where
  /-- the read loop goes on -/
  | resume
  /-- a data message comes in -/
  | arrive (data : List UInt8)
  /-- `decode()` -/
  | decode
  deriving DecidableEq, Repr

variable {V ω : Type}

/-- The head of the loop, up to its first await. -/
def FrameCodec.iterate (fc : FrameCodec V) : FrameCodec V :=
  { fc with
    readLoop := if 0 < fc.readLimit ∧ fc.readLimit ≤ fc.readCount then .returned else .yielded }

/-- The constructor. -/
def FrameCodec.new (readLimit : Int) : FrameCodec V :=
  FrameCodec.iterate { buf := [], waiters := [], readLimit, readCount := 0, readLoop := .yielded }

/-- `this.readCount++`. -/
def World.count (w : World V ω) : World V ω :=
  { w with fc := { w.fc with readCount := w.fc.readCount + 1 } }

/-- A value goes to the first waiter, or into `buf`. -/
def World.hand (w : World V ω) (v : V) : World V ω :=
  match w.fc.waiters with
  | waiter :: waiters =>
    { w with fc := { w.fc with waiters }, resolved := w.resolved ++ [(waiter, v)] }
  | [] => { w with fc := { w.fc with buf := w.fc.buf ++ [v] } }

/-- A value is handed over and the loop starts again. -/
def World.value (w : World V ω) (v : V) : World V ω :=
  let w := w.hand v
  { w with fc := w.fc.iterate }

/-- The loop calls `channel.read(len)` and awaits it. -/
def World.read (w : World V ω) (len : Nat) (await : ReadResult → ReadLoop) : World V ω :=
  let (res, channel) := w.channel.tryRead 0 len
  { w with channel, fc := { w.fc with readLoop := await res } }

def World.finish (w : World V ω) (readLoop : ReadLoop) : World V ω :=
  { w with fc := { w.fc with readLoop } }

/-- `readLoop` from one await to the next; `none` where it cannot go on. -/
def World.resume (codec : Codec V) (w : World V ω) : Option (World V ω) :=
  match w.fc.readLoop with
  | .yielded => some (w.read 4 .readingLen)
  | .readingLen .undefined => some (w.finish .returned)
  | .readingLen (.data lenPrefix) =>
    match getUint32 lenPrefix 0 with
    | none => some (w.finish .threw)
    | some size => some (w.read size .readingBody)
  | .readingBody .undefined => some (w.finish .returned)
  | .readingBody (.data buf) =>
    let w := w.count
    match codec.decode buf with
    | none => some (w.finish .threw)
    | some v => some (w.value v)
  | _ => none

/-- The promise that the loop awaits is resolved. -/
def ReadLoop.wake (res : ReadResult) : ReadLoop → ReadLoop
  | .readingLen _ => .readingLen res
  | .readingBody _ => .readingBody res
  | l => l

/-- A data message that the channel accepts. -/
def World.arrive (w : World V ω) (data : List UInt8) : Option (World V ω) :=
  match w.channel.handleData data.length data with
  | .error _ => none
  | .ok (woken, channel) =>
    let w := { w with channel, arrived := w.arrived ++ data }
    match woken with
    | none => some w
    | some (_, res) => some (w.finish (w.fc.readLoop.wake res))

/-- `decode()`, the call with this number. -/
def World.decode (w : World V ω) (call : Nat) : World V ω :=
  match w.fc.buf with
  | v :: buf => { w with fc := { w.fc with buf }, resolved := w.resolved ++ [(call, v)] }
  | [] => { w with fc := { w.fc with waiters := w.fc.waiters ++ [call] } }

def step (codec : Codec V) (w : World V ω) : Act → Option (World V ω)
  | .resume => w.resume codec
  | .arrive data => w.arrive data
  | .decode => some { w.decode w.calls with calls := w.calls + 1 }

/-- A new frame codec on a channel where `bs` came in already. -/
def start (channel : Channel ω) (bs : List UInt8) (readLimit : Int) : World V ω :=
  { channel, fc := .new readLimit, calls := 0, resolved := [], arrived := bs }

/-! ## Frames -/

/-- The frame of a value. -/
def frame (codec : Codec V) (v : V) : List UInt8 := (codec.writes v).flatten

def frames (codec : Codec V) (vs : List V) : List UInt8 := vs.flatMap (frame codec)

/-- A value that goes through a frame: it is not empty, its length is a word, and `decode`
undoes `encode`. -/
structure Framable (codec : Codec V) (v : V) : Prop where
  some_bytes : codec.encode v ≠ []
  short : (codec.encode v).length < 2 ^ 32
  undone : codec.decode (codec.encode v) = some v

/-- The length prefix of a value. -/
def prefixOf (codec : Codec V) (v : V) : List UInt8 :=
  beBytes (UInt32.ofNat (codec.encode v).length)

theorem frame_eq (codec : Codec V) (v : V) : frame codec v = prefixOf codec v ++ codec.encode v := by
  rw [frame, Codec.writes]
  simp [setUint32, prefixOf]

@[simp] theorem prefixOf_length (codec : Codec V) (v : V) : (prefixOf codec v).length = 4 := rfl

theorem beWord_prefixOf {codec : Codec V} {v : V} (h : Framable codec v) :
    (beWord (prefixOf codec v)).toNat = (codec.encode v).length := by
  have hw := beWord_beBytes (UInt32.ofNat (codec.encode v).length) []
  rw [List.append_nil] at hw
  rw [prefixOf, hw, UInt32.toNat_ofNat']
  exact Nat.mod_eq_of_lt h.short

theorem frames_take_succ {codec : Codec V} {vs : List V} {n : Nat} {v : V} (h : vs[n]? = some v) :
    frames codec (vs.take (n + 1)) = frames codec (vs.take n) ++ frame codec v := by
  rw [List.take_add_one, h, frames, frames, Option.toList_some, List.flatMap_append,
    List.flatMap_singleton]

theorem frames_take_mono (codec : Codec V) (vs : List V) {m n : Nat} (h : m ≤ n) :
    frames codec (vs.take m) <+: frames codec (vs.take n) := by
  obtain ⟨more, hmore⟩ := List.take_prefix_take_left (l := vs) h
  rw [← hmore, frames, frames, List.flatMap_append]
  exact List.prefix_append _ _

/-- The frames behind the first `n`. -/
theorem frames_split {codec : Codec V} {vs : List V} {n : Nat} {v : V} (h : vs[n]? = some v) :
    frames codec vs
      = frames codec (vs.take n) ++ (frame codec v ++ frames codec (vs.drop (n + 1))) := by
  have hv : vs = vs.take n ++ v :: vs.drop (n + 1) := by
    obtain ⟨hn, hv⟩ := List.getElem?_eq_some_iff.mp h
    rw [← hv, ← List.drop_eq_getElem_cons hn, List.take_append_drop]
  have hsplit := congrArg (frames codec) hv
  rw [hsplit]
  simp [frames]

/-! ## Where the loop stands -/

/-- Inside a frame: `held` are the bytes the loop has taken of it, `unread` those that wait
in the channel, with the reads parked there. -/
inductive Midframe (unread : List UInt8) : ReadLoop → List (Nat × Nat) → List UInt8 → Prop where
  | yielded : Midframe unread .yielded [] []
  | waitLen (h : unread.length < 4) : Midframe unread (.readingLen .pending) [(0, 4)] []
  | gotLen {bs : List UInt8} (h : bs.length = 4) : Midframe unread (.readingLen (.data bs)) [] bs
  | waitBody {bs : List UInt8} (h : bs.length = 4) (hu : unread.length < (beWord bs).toNat) :
      Midframe unread (.readingBody .pending) [(0, (beWord bs).toNat)] bs
  | gotBody {bs body : List UInt8} (h : bs.length = 4) (hb : body.length = (beWord bs).toNat) :
      Midframe unread (.readingBody (.data body)) [] (bs ++ body)
  | returned : Midframe unread .returned [] []

theorem Midframe.returned_held {unread held : List UInt8} {readers : List (Nat × Nat)}
    (h : Midframe unread .returned readers held) : held = [] := by
  cases h
  rfl

/-- A bound, with two for each unread byte, on how often the loop can still go on. -/
def ReadLoop.left : ReadLoop → Nat
  | .yielded => 1
  | .readingLen (.data _) => 3
  | .readingBody (.data _) => 2
  | _ => 0

theorem Midframe.left_readLen {unread unread' held : List UInt8} {res : ReadResult}
    {readers : List (Nat × Nat)} (h : Midframe unread' (.readingLen res) readers held)
    (heq : held ++ unread' = unread) :
    2 * unread'.length + (ReadLoop.readingLen res).left < 2 * unread.length + 1 := by
  have hlen := congrArg List.length heq
  rw [List.length_append] at hlen
  cases h with
  | waitLen hu =>
    simp only [ReadLoop.left]
    omega
  | gotLen hbs =>
    simp only [ReadLoop.left]
    omega

theorem Midframe.left_readBody {unread unread' held bs : List UInt8} {res : ReadResult}
    {readers : List (Nat × Nat)} (h : Midframe unread' (.readingBody res) readers held)
    (hbs : bs.length = 4) (heq : held ++ unread' = bs ++ unread) :
    2 * unread'.length + (ReadLoop.readingBody res).left < 2 * unread.length + 3 := by
  have hlen := congrArg List.length heq
  rw [List.length_append, List.length_append] at hlen
  cases h with
  | waitBody hbs' hu =>
    simp only [ReadLoop.left]
    omega
  | gotBody hbs' hb =>
    rw [List.length_append] at hlen
    simp only [ReadLoop.left]
    omega

/-- What `read(4)` makes of a loop that stands between two frames. -/
theorem Midframe.readLen {c : Channel ω} {unread : List UInt8} (h : c.Unread unread)
    (hr : c.readers = []) :
    ∃ unread' held, (c.tryRead 0 4).2.Unread unread' ∧ held ++ unread' = unread ∧
      Midframe unread' (.readingLen (c.tryRead 0 4).1) (c.tryRead 0 4).2.readers held := by
  rcases h.tryRead_cases hr 0 (by decide : 0 < 4) with ⟨hle, h1, h2, h3⟩ | ⟨hlt, h1, h2, h3⟩
  · refine ⟨_, unread.take 4, h2, List.take_append_drop 4 unread, ?_⟩
    rw [h1, h3]
    exact .gotLen (by simp [hle])
  · refine ⟨_, [], h2, rfl, ?_⟩
    rw [h1, h3]
    exact .waitLen hlt

/-- What `read(size)` makes of a loop that holds the length of some bytes. -/
theorem Midframe.readBody {c : Channel ω} {unread bs : List UInt8} (h : c.Unread unread)
    (hr : c.readers = []) (hbs : bs.length = 4) (hsize : 0 < (beWord bs).toNat) :
    ∃ unread' held, (c.tryRead 0 (beWord bs).toNat).2.Unread unread' ∧
      held ++ unread' = bs ++ unread ∧
      Midframe unread' (.readingBody (c.tryRead 0 (beWord bs).toNat).1)
        (c.tryRead 0 (beWord bs).toNat).2.readers held := by
  rcases h.tryRead_cases hr 0 hsize with ⟨hle, h1, h2, h3⟩ | ⟨hlt, h1, h2, h3⟩
  · refine ⟨_, bs ++ unread.take (beWord bs).toNat, h2, ?_, ?_⟩
    · rw [List.append_assoc, List.take_append_drop]
    · rw [h1, h3]
      exact .gotBody hbs (by simp [hle])
  · refine ⟨_, bs, h2, rfl, ?_⟩
    rw [h1, h3]
    exact .waitBody hbs hlt

/-- The loop has taken `readCount` frames whole and `held` of the next one, and their values
have gone to the `decode` calls in order or wait in `buf`. -/
structure Serving (codec : Codec V) (vs : List V) (w : World V ω) (unread held : List UInt8) :
    Prop where
  buffered : w.channel.Unread unread
  mid : Midframe unread w.fc.readLoop w.channel.readers held
  taken : w.arrived = frames codec (vs.take w.fc.readCount) ++ (held ++ unread)
  count : w.fc.readCount ≤ vs.length
  limit : w.fc.readLoop = .returned ↔ 0 < w.fc.readLimit ∧ w.fc.readLimit ≤ w.fc.readCount
  below : 0 < w.fc.readLimit → w.fc.readCount ≤ w.fc.readLimit
  handed : w.resolved.map Prod.snd ++ w.fc.buf = vs.take w.fc.readCount
  numbered : w.resolved.map Prod.fst ++ w.fc.waiters = List.range w.calls
  apart : w.fc.waiters = [] ∨ w.fc.buf = []

section Stream

variable {codec : Codec V} {vs : List V} {tail : List UInt8} {w : World V ω}
  {unread held : List UInt8}

/-- The stream ends with the frames of the values, or with the last frame the loop reads
something else may follow. -/
def Ends (vs : List V) (tail : List UInt8) (readLimit : Int) : Prop :=
  tail = [] ∨ 0 < readLimit ∧ readLimit ≤ vs.length

/-- A loop that goes on has taken all there is, or stands in the frame of a value. -/
theorem Serving.next (h : Serving codec vs w unread held) (hp : w.arrived <+: frames codec vs ++ tail)
    (hend : w.fc.readCount < vs.length ∨ Ends vs tail w.fc.readLimit)
    (hloop : w.fc.readLoop ≠ .returned) :
    (w.fc.readCount = vs.length ∧ held = [] ∧ unread = []) ∨
      ∃ v, vs[w.fc.readCount]? = some v ∧
        held ++ unread <+: prefixOf codec v ++ (codec.encode v ++
          (frames codec (vs.drop (w.fc.readCount + 1)) ++ tail)) := by
  rw [h.taken] at hp
  rcases Nat.lt_or_ge w.fc.readCount vs.length with hlt | hge
  · have hv : vs[w.fc.readCount]? = some vs[w.fc.readCount] := List.getElem?_eq_getElem hlt
    refine .inr ⟨_, hv, ?_⟩
    rw [frames_split hv, frame_eq, List.append_assoc, List.append_assoc, List.append_assoc,
      List.prefix_append_right_inj] at hp
    exact hp
  · have hall : w.fc.readCount = vs.length := Nat.le_antisymm h.count hge
    have htail : tail = [] := by
      rcases hend with hlt | htail | ⟨hpos, hle⟩
      · omega
      · exact htail
      · exact absurd (h.limit.mpr ⟨hpos, by omega⟩) hloop
    rw [hall, List.take_length, htail, List.prefix_append_right_inj, List.prefix_nil,
      List.append_eq_nil_iff] at hp
    exact .inl ⟨hall, hp⟩

/-! ## What each step keeps -/

/-- The loop goes on to another await inside the frame, or more bytes come in. -/
theorem Serving.move (h : Serving codec vs w unread held) (hloop : w.fc.readLoop ≠ .returned)
    (data : List UInt8) {channel : Channel ω} {readLoop : ReadLoop} {unread' held' : List UInt8}
    (hc : channel.Unread unread') (hm : Midframe unread' readLoop channel.readers held')
    (heq : held' ++ unread' = held ++ unread ++ data) (hloop' : readLoop ≠ .returned) :
    Serving codec vs
      { w with channel, fc := { w.fc with readLoop }, arrived := w.arrived ++ data } unread' held' where
  buffered := hc
  mid := hm
  taken := by rw [heq, h.taken, List.append_assoc]
  count := h.count
  limit := iff_of_false hloop' (mt h.limit.mpr hloop)
  below := h.below
  handed := h.handed
  numbered := h.numbered
  apart := h.apart

theorem Serving.reading (h : Serving codec vs w unread held) (hloop : w.fc.readLoop ≠ .returned)
    {len : Nat} {await : ReadResult → ReadLoop} {unread' held' : List UInt8}
    (hc : (w.channel.tryRead 0 len).2.Unread unread')
    (hm : Midframe unread' (await (w.channel.tryRead 0 len).1) (w.channel.tryRead 0 len).2.readers held')
    (heq : held' ++ unread' = held ++ unread) (hawait : ∀ res, await res ≠ .returned) :
    Serving codec vs (w.read len await) unread' held' := by
  have hmove := h.move hloop [] hc hm (by rw [heq, List.append_nil]) (hawait _)
  rwa [List.append_nil] at hmove

theorem prefix_parts {a b c d : List UInt8} (hl : a.length = c.length) (h : a ++ b <+: c ++ d) :
    a = c ∧ b <+: d := by
  obtain ⟨e, he⟩ := h
  rw [List.append_assoc] at he
  obtain ⟨hac, hbd⟩ := List.append_inj he hl
  exact ⟨hac, e, hbd⟩

theorem hand_frame (w : World V ω) (v : V) :
    (w.hand v).channel = w.channel ∧ (w.hand v).arrived = w.arrived ∧ (w.hand v).calls = w.calls ∧
      (w.hand v).fc.readLimit = w.fc.readLimit ∧ (w.hand v).fc.readCount = w.fc.readCount := by
  rw [World.hand]
  split <;> exact ⟨rfl, rfl, rfl, rfl, rfl⟩

/-- A value handed over goes behind those before it, to the next call in order. -/
theorem hand_order (w : World V ω) (v : V) (h : w.fc.waiters = [] ∨ w.fc.buf = []) :
    (w.hand v).resolved.map Prod.snd ++ (w.hand v).fc.buf
        = w.resolved.map Prod.snd ++ w.fc.buf ++ [v] ∧
      (w.hand v).resolved.map Prod.fst ++ (w.hand v).fc.waiters
        = w.resolved.map Prod.fst ++ w.fc.waiters ∧
      ((w.hand v).fc.waiters = [] ∨ (w.hand v).fc.buf = []) := by
  rw [World.hand]
  cases hw : w.fc.waiters with
  | nil => exact ⟨(List.append_assoc _ _ _).symm, by dsimp only; rw [hw], .inl hw⟩
  | cons waiter waiters =>
    have hbuf : w.fc.buf = [] := by
      rcases h with h | h
      · rw [hw] at h
        cases h
      · exact h
    dsimp only
    rw [hbuf]
    simp

theorem iterate_returned (fc : FrameCodec V) :
    fc.iterate.readLoop = .returned ↔ 0 < fc.readLimit ∧ fc.readLimit ≤ fc.readCount := by
  by_cases h : 0 < fc.readLimit ∧ fc.readLimit ≤ fc.readCount
  · have hl : fc.iterate.readLoop = .returned := if_pos h
    exact iff_of_true hl h
  · have hl : fc.iterate.readLoop = .yielded := if_neg h
    refine iff_of_false ?_ h
    rw [hl]
    intro hr
    cases hr

/-- The head of the loop stands between two frames. -/
theorem Midframe.iterate (fc : FrameCodec V) (unread : List UInt8) :
    Midframe unread fc.iterate.readLoop [] [] := by
  rw [FrameCodec.iterate]
  dsimp only
  split
  · exact .returned
  · exact .yielded

theorem Serving.value (h : Serving codec vs w unread held) (hloop : w.fc.readLoop ≠ .returned) {v : V}
    (hv : vs[w.fc.readCount]? = some v) (hheld : held = frame codec v)
    (hr : w.channel.readers = []) : Serving codec vs (w.count.value v) unread [] := by
  obtain ⟨hchannel, harrived, hcalls, hlimit, hcount⟩ := hand_frame w.count v
  obtain ⟨hhanded, hnumbered, happart⟩ := hand_order w.count v h.apart
  have hopen : ¬ (0 < w.fc.readLimit ∧ w.fc.readLimit ≤ w.fc.readCount) := mt h.limit.mpr hloop
  have hc : (w.count.value v).fc.readCount = w.fc.readCount + 1 := hcount
  have hl : (w.count.value v).fc.readLimit = w.fc.readLimit := hlimit
  constructor
  case buffered =>
    rw [World.value, hchannel]
    exact h.buffered
  case mid =>
    rw [World.value, hchannel, World.count, hr]
    exact .iterate _ unread
  case taken =>
    have hall : (w.count.value v).arrived = w.arrived := harrived
    rw [hall, hc, h.taken, hheld, ← List.append_assoc, ← frames_take_succ hv]
    rfl
  case count =>
    rw [hc]
    exact (List.getElem?_eq_some_iff.mp hv).1
  case limit => exact iterate_returned _
  case below =>
    intro hpos
    rw [hl] at hpos ⊢
    rw [hc]
    omega
  case handed =>
    have hnext : vs.take (w.fc.readCount + 1) = vs.take w.fc.readCount ++ [v] := by
      rw [List.take_add_one, hv]
      rfl
    rw [hc, hnext, ← h.handed]
    exact hhanded
  case numbered =>
    have hall : (w.count.value v).calls = w.calls := hcalls
    rw [hall, ← h.numbered]
    exact hnumbered
  case apart => exact happart

/-- One step of the read loop. -/
theorem Serving.resume (h : Serving codec vs w unread held) (hvs : ∀ v ∈ vs, Framable codec v)
    (hp : w.arrived <+: frames codec vs ++ tail)
    (hend : w.fc.readCount < vs.length ∨ Ends vs tail w.fc.readLimit) {w' : World V ω}
    (hs : w.resume codec = some w') :
    ∃ unread' held', Serving codec vs w' unread' held' ∧ w'.arrived = w.arrived ∧
      w'.fc.readLimit = w.fc.readLimit ∧ w'.calls = w.calls ∧
      2 * unread'.length + w'.fc.readLoop.left < 2 * unread.length + w.fc.readLoop.left := by
  have hmid := h.mid
  rw [World.resume] at hs
  generalize hl : w.fc.readLoop = readLoop at hmid hs
  generalize hr : w.channel.readers = readers at hmid
  cases hmid with
  | yielded =>
    cases hs
    obtain ⟨unread', held', hc, heq, hm⟩ := Midframe.readLen h.buffered hr
    have hread := h.reading (by rw [hl]; intro hl; cases hl) hc hm heq (by intro res hl; cases hl)
    exact ⟨unread', held', hread, rfl, rfl, rfl, hm.left_readLen heq⟩
  | waitLen hu => cases hs
  | gotLen hbs =>
    have hsome : getUint32 held 0 = some (beWord held).toNat := if_pos (by omega)
    dsimp only at hs
    rw [hsome] at hs
    cases hs
    have hloop : w.fc.readLoop ≠ .returned := by
      rw [hl]
      intro hl
      cases hl
    rcases h.next hp hend hloop with ⟨-, hnil, -⟩ | ⟨v, hv, hframe⟩
    · rw [hnil] at hbs
      cases hbs
    · have hfr := hvs v (List.mem_of_getElem? hv)
      obtain ⟨hpre, -⟩ := prefix_parts (hbs.trans (prefixOf_length codec v).symm) hframe
      have hsize : 0 < (beWord held).toNat := by
        rw [hpre, beWord_prefixOf hfr]
        exact List.length_pos_iff.mpr hfr.some_bytes
      obtain ⟨unread', held', hc, heq, hm⟩ := Midframe.readBody h.buffered hr hbs hsize
      have hread := h.reading hloop hc hm heq (by intro res hl; cases hl)
      exact ⟨unread', held', hread, rfl, rfl, rfl, hm.left_readBody hbs heq⟩
  | waitBody hbs hu => cases hs
  | @gotBody bs body hbs hbody =>
    have hloop : w.fc.readLoop ≠ .returned := by
      rw [hl]
      intro hl
      cases hl
    rcases h.next hp hend hloop with ⟨-, hnil, -⟩ | ⟨v, hv, hframe⟩
    · have hlen := congrArg List.length hnil
      rw [List.length_append, hbs] at hlen
      simp at hlen
    · have hfr := hvs v (List.mem_of_getElem? hv)
      rw [List.append_assoc] at hframe
      obtain ⟨hpre, hrest⟩ := prefix_parts (hbs.trans (prefixOf_length codec v).symm) hframe
      have hlen : body.length = (codec.encode v).length := by
        rw [hbody, hpre, beWord_prefixOf hfr]
      obtain ⟨hbytes, -⟩ := prefix_parts hlen hrest
      dsimp only at hs
      rw [hbytes, hfr.undone] at hs
      have hheld : bs ++ body = frame codec v := by rw [frame_eq, hpre, hbytes]
      cases hs
      obtain ⟨-, harrived, hcalls, hlimit, -⟩ := hand_frame w.count v
      have hleft : (w.count.value v).fc.readLoop.left ≤ 1 := by
        rw [World.value, FrameCodec.iterate]
        dsimp only
        split <;> decide
      refine ⟨unread, [], h.value hloop hv hheld hr, harrived, hlimit, hcalls, ?_⟩
      simp only [ReadLoop.left] at hleft ⊢
      omega
  | returned => cases hs

/-- Data comes in while the loop is at work or between two turns. -/
theorem World.arrive_idle {data : List UInt8} {w' : World V ω} (hr : w.channel.readers = [])
    (hs : w.arrive data = some w') :
    w' = { w with channel := w.channel.take data.length data, arrived := w.arrived ++ data } := by
  rw [World.arrive] at hs
  cases hd : w.channel.handleData data.length data with
  | error e =>
    rw [hd] at hs
    cases hs
  | ok res =>
    rw [hd, Channel.handleData_idle hr hd] at hs
    cases hs
    rfl

/-- Data comes in while the loop waits for it. -/
theorem World.arrive_parked {data : List UInt8} {w' : World V ω} {len : Nat}
    (hr : w.channel.readers = [(0, len)]) (hs : w.arrive data = some w') :
    ∃ c : Channel ω, c = { w.channel.take data.length data with readers := [] } ∧
      w' = { w with
        channel := (c.tryRead 0 len).2
        fc := { w.fc with readLoop := w.fc.readLoop.wake (c.tryRead 0 len).1 }
        arrived := w.arrived ++ data } := by
  refine ⟨_, rfl, ?_⟩
  rw [World.arrive] at hs
  cases hd : w.channel.handleData data.length data with
  | error e =>
    rw [hd] at hs
    cases hs
  | ok res =>
    rw [hd, Channel.handleData_parked hr hd] at hs
    cases hs
    rfl

/-- Data that comes in waits in the channel, or the parked read gets it. -/
theorem Serving.arrive (h : Serving codec vs w unread held) {data : List UInt8} {w' : World V ω}
    (hs : w.arrive data = some w') :
    ∃ unread' held', Serving codec vs w' unread' held' ∧ w'.arrived = w.arrived ++ data ∧
      w'.fc.readLimit = w.fc.readLimit := by
  have hmid := h.mid
  have hbuf := h.buffered.take data.length data
  have idle : w.channel.readers = [] → Midframe (unread ++ data) w.fc.readLoop [] held →
      ∃ unread' held', Serving codec vs w' unread' held' ∧ w'.arrived = w.arrived ++ data ∧
        w'.fc.readLimit = w.fc.readLimit := by
    intro hr hm
    rw [World.arrive_idle hr hs]
    refine ⟨unread ++ data, held, ⟨hbuf, ?_, ?_, h.count, h.limit, h.below, h.handed, h.numbered,
      h.apart⟩, rfl, rfl⟩
    · exact hr ▸ hm
    · dsimp only
      rw [h.taken, List.append_assoc, List.append_assoc]
  generalize hl : w.fc.readLoop = readLoop at hmid idle
  generalize hr : w.channel.readers = readers at hmid idle
  cases hmid with
  | yielded => exact idle rfl .yielded
  | waitLen hu =>
    obtain ⟨c, hc, rfl⟩ := World.arrive_parked hr hs
    have hcbuf : c.Unread (unread ++ data) := by
      rw [hc]
      exact ⟨hbuf.buf, hbuf.more⟩
    have hcr : c.readers = [] := by rw [hc]
    obtain ⟨unread', held', hc', heq, hm⟩ := Midframe.readLen hcbuf hcr
    rw [hl]
    exact ⟨unread', held', h.move (by rw [hl]; intro hl; cases hl) data hc' hm heq
      (by intro hl; cases hl), rfl, rfl⟩
  | gotLen hbs => exact idle rfl (.gotLen hbs)
  | waitBody hbs hu =>
    obtain ⟨c, hc, rfl⟩ := World.arrive_parked hr hs
    have hcbuf : c.Unread (unread ++ data) := by
      rw [hc]
      exact ⟨hbuf.buf, hbuf.more⟩
    have hcr : c.readers = [] := by rw [hc]
    obtain ⟨unread', held', hc', heq, hm⟩ := Midframe.readBody hcbuf hcr hbs (by omega)
    rw [← List.append_assoc] at heq
    rw [hl]
    exact ⟨unread', held', h.move (by rw [hl]; intro hl; cases hl) data hc' hm heq
      (by intro hl; cases hl), rfl, rfl⟩
  | gotBody hbs hb => exact idle rfl (.gotBody hbs hb)
  | returned => exact idle rfl .returned

theorem decode_frame (w : World V ω) (call : Nat) :
    (w.decode call).channel = w.channel ∧ (w.decode call).arrived = w.arrived ∧
      (w.decode call).fc.readLoop = w.fc.readLoop ∧ (w.decode call).fc.readCount = w.fc.readCount ∧
      (w.decode call).fc.readLimit = w.fc.readLimit ∧
      w.resolved.length ≤ (w.decode call).resolved.length := by
  rw [World.decode]
  split
  · exact ⟨rfl, rfl, rfl, rfl, rfl, by simp⟩
  · exact ⟨rfl, rfl, rfl, rfl, rfl, Nat.le_refl _⟩

/-- A call of `decode` takes its turn. -/
theorem Serving.decode (h : Serving codec vs w unread held) :
    Serving codec vs { w.decode w.calls with calls := w.calls + 1 } unread held := by
  have hhanded := h.handed
  have hnumbered := h.numbered
  rw [World.decode]
  cases hb : w.fc.buf with
  | nil =>
    refine ⟨h.buffered, h.mid, h.taken, h.count, h.limit, h.below, h.handed, ?_, .inr hb⟩
    dsimp only
    rw [← List.append_assoc, hnumbered, List.range_succ]
  | cons v buf =>
    have hwait : w.fc.waiters = [] := by
      rcases h.apart with h0 | h0
      · exact h0
      · rw [hb] at h0
        cases h0
    rw [hb] at hhanded
    rw [hwait, List.append_nil] at hnumbered
    refine ⟨h.buffered, h.mid, h.taken, h.count, h.limit, h.below, ?_, ?_, .inl hwait⟩
    · dsimp only
      rw [← hhanded, List.map_append, List.append_assoc]
      rfl
    · dsimp only
      rw [hwait, List.append_nil, List.map_append, hnumbered, List.range_succ]
      rfl

/-! ## Runs -/

/-- The values the loop is to decode. -/
def served (vs : List V) (readLimit : Int) : List V :=
  if 0 < readLimit then vs.take readLimit.toNat else vs

/-- The data that comes in is cut from the stream. -/
def Carries (stream : List UInt8) : World V ω → Act → Prop
  | w, .arrive data => w.arrived ++ data <+: stream
  | _, _ => True

instance (stream : List UInt8) : (w : World V ω) → (a : Act) → Decidable (Carries stream w a)
  | w, .arrive data => inferInstanceAs (Decidable (w.arrived ++ data <+: stream))
  | _, .resume => .isTrue trivial
  | _, .decode => .isTrue trivial

/-- The loop goes on by itself. -/
def ByItself : World V ω → Act → Prop := fun _ a => a = .resume

theorem Serving.start {channel : Channel ω} {bs : List UInt8} (hc : channel.Unread bs)
    (hr : channel.readers = []) (readLimit : Int) :
    Serving codec vs (start channel bs readLimit) bs [] where
  buffered := hc
  mid := by
    rw [Rpc.start, FrameCodec.new, hr]
    exact .iterate _ bs
  taken := rfl
  count := Nat.zero_le _
  limit := iterate_returned _
  below hpos := Int.le_of_lt hpos
  handed := rfl
  numbered := rfl
  apart := .inl rfl

/-- Every reachable state serves the values. -/
theorem Run.serving (hvs : ∀ v ∈ vs, Framable codec v) {readLimit : Int} (hend : Ends vs tail readLimit)
    {channel : Channel ω} {bs : List UInt8} (hc : channel.Unread bs) (hr : channel.readers = [])
    (hbs : bs <+: frames codec vs ++ tail)
    (run : Run (step codec) (Carries (frames codec vs ++ tail)) (start channel bs readLimit) w) :
    ∃ unread held, Serving codec vs w unread held ∧ w.arrived <+: frames codec vs ++ tail ∧
      w.fc.readLimit = readLimit := by
  induction run with
  | start => exact ⟨bs, [], .start hc hr readLimit, hbs, rfl⟩
  | @step w w' a run hok hs ih =>
    obtain ⟨unread, held, h, hp, hlimit⟩ := ih
    cases a with
    | resume =>
      obtain ⟨unread', held', h', harrived, hlimit', -⟩ := h.resume hvs hp (.inr (hlimit ▸ hend)) hs
      exact ⟨unread', held', h', harrived ▸ hp, hlimit'.trans hlimit⟩
    | arrive data =>
      obtain ⟨unread', held', h', harrived, hlimit'⟩ := h.arrive hs
      exact ⟨unread', held', h', harrived ▸ hok, hlimit'.trans hlimit⟩
    | decode =>
      cases hs
      obtain ⟨-, harrived, -, -, hlimit', -⟩ := decode_frame w w.calls
      exact ⟨unread, held, h.decode, harrived ▸ hp, hlimit'.trans hlimit⟩

end Stream

/-! ## In order, and no byte too many -/

theorem served_eq (vs : List V) (readLimit : Int) :
    ∃ n, served vs readLimit = vs.take n ∧ n ≤ vs.length ∧
      (0 < readLimit → n ≤ readLimit) ∧ (0 < readLimit ∧ readLimit ≤ n ∨ n = vs.length) := by
  by_cases hpos : 0 < readLimit
  · refine ⟨min readLimit.toNat vs.length, ?_, by omega, by omega, by omega⟩
    rw [served, if_pos hpos, List.take_eq_take_iff]
    omega
  · refine ⟨vs.length, ?_, Nat.le_refl _, fun h => absurd h hpos, .inr rfl⟩
    rw [served, if_neg hpos, List.take_length]

/-- The calls of `decode` that were answered got their values in order, and the loop took
no byte beyond the frames it is to decode. -/
structure Delivered (codec : Codec V) (vs : List V) (readLimit : Int) (w : World V ω) : Prop where
  inOrder : ∀ k v, (k, v) ∈ w.resolved → vs[k]? = some v
  once : w.resolved.map Prod.fst = List.range w.resolved.length
  exact : ∃ taken unread, w.channel.readBuf = some unread ∧ w.arrived = taken ++ unread ∧
    taken <+: frames codec (served vs readLimit)

/-- Every call of `decode` that has a value was answered, and what follows the frames is in
the channel. -/
structure Complete (codec : Codec V) (vs : List V) (readLimit : Int) (w : World V ω) : Prop where
  answered : ∀ k v, k < w.calls → (served vs readLimit)[k]? = some v → (k, v) ∈ w.resolved
  left : ∃ unread, w.channel.readBuf = some unread ∧
    w.arrived = frames codec (served vs readLimit) ++ unread

section Stream

variable {codec : Codec V} {vs : List V} {tail : List UInt8} {w : World V ω}
  {unread held : List UInt8}

/-- The answered calls are the first ones, with the first values. -/
theorem Serving.resolved (h : Serving codec vs w unread held) {i k : Nat} {v : V}
    (hi : w.resolved[i]? = some (k, v)) : k = i ∧ vs[i]? = some v ∧ i < w.fc.readCount := by
  have hlt := (List.getElem?_eq_some_iff.mp hi).1
  have hk : (w.resolved.map Prod.fst ++ w.fc.waiters)[i]? = some k := by
    rw [List.getElem?_append_left (by simpa using hlt), List.getElem?_map, hi]
    rfl
  have hv : (w.resolved.map Prod.snd ++ w.fc.buf)[i]? = some v := by
    rw [List.getElem?_append_left (by simpa using hlt), List.getElem?_map, hi]
    rfl
  rw [h.numbered] at hk
  rw [h.handed, List.getElem?_take] at hv
  obtain ⟨hi', hk⟩ := List.getElem?_eq_some_iff.mp hk
  rw [List.getElem_range] at hk
  split at hv
  · next hn => exact ⟨hk.symm, hv, hn⟩
  · cases hv

/-- What is held is part of the next frame. -/
theorem Serving.held_frame (h : Serving codec vs w unread held) (hvs : ∀ v ∈ vs, Framable codec v)
    {v : V} {more : List UInt8} (hv : vs[w.fc.readCount]? = some v)
    (hp : held ++ unread <+: prefixOf codec v ++ (codec.encode v ++ more)) :
    held <+: frame codec v := by
  have hfr := hvs v (List.mem_of_getElem? hv)
  have hmid := h.mid
  generalize w.fc.readLoop = readLoop at hmid
  generalize w.channel.readers = readers at hmid
  rw [frame_eq]
  cases hmid with
  | yielded => exact List.nil_prefix
  | waitLen hu => exact List.nil_prefix
  | gotLen hbs =>
    obtain ⟨hpre, -⟩ := prefix_parts (hbs.trans (prefixOf_length codec v).symm) hp
    rw [hpre]
    exact List.prefix_append _ _
  | waitBody hbs hu =>
    obtain ⟨hpre, -⟩ := prefix_parts (hbs.trans (prefixOf_length codec v).symm) hp
    rw [hpre]
    exact List.prefix_append _ _
  | @gotBody bs body hbs hb =>
    rw [List.append_assoc] at hp
    obtain ⟨hpre, hrest⟩ := prefix_parts (hbs.trans (prefixOf_length codec v).symm) hp
    rw [hpre, beWord_prefixOf hfr] at hb
    obtain ⟨hbody, -⟩ := prefix_parts hb hrest
    have hwhole : bs ++ body = prefixOf codec v ++ codec.encode v := by rw [hpre, hbody]
    exact hwhole ▸ List.prefix_rfl
  | returned => exact List.nil_prefix

/-- What is held, if anything, is part of the frame of a value that the loop is to decode. -/
theorem Serving.held_part (h : Serving codec vs w unread held) (hvs : ∀ v ∈ vs, Framable codec v)
    (hp : w.arrived <+: frames codec vs ++ tail) (hend : Ends vs tail w.fc.readLimit) :
    held = [] ∨ ¬(0 < w.fc.readLimit ∧ w.fc.readLimit ≤ w.fc.readCount) ∧
      ∃ v, vs[w.fc.readCount]? = some v ∧ held <+: frame codec v := by
  by_cases hloop : w.fc.readLoop = .returned
  · exact .inl (Midframe.returned_held (hloop ▸ h.mid))
  · rcases h.next hp (.inr hend) hloop with ⟨-, h0, -⟩ | ⟨v, hv, hframe⟩
    · exact .inl h0
    · exact .inr ⟨mt h.limit.mpr hloop, v, hv, h.held_frame hvs hv hframe⟩

/-- The loop is inside the frames it is to decode. -/
theorem Serving.delivered (h : Serving codec vs w unread held) (hvs : ∀ v ∈ vs, Framable codec v)
    (hp : w.arrived <+: frames codec vs ++ tail) (hend : Ends vs tail w.fc.readLimit) :
    Delivered codec vs w.fc.readLimit w := by
  obtain ⟨n, hserved, hn, hle, hn'⟩ := served_eq vs w.fc.readLimit
  refine ⟨fun k v hkv => ?_, ?_, frames codec (vs.take w.fc.readCount) ++ held, unread,
    h.buffered.buf, by rw [h.taken, List.append_assoc], ?_⟩
  · obtain ⟨i, hi⟩ := List.getElem?_of_mem hkv
    obtain ⟨rfl, hv, -⟩ := h.resolved hi
    exact hv
  · have hnumbered := congrArg (List.take w.resolved.length) h.numbered
    have hlen := congrArg List.length h.numbered
    rw [List.length_append, List.length_map, List.length_range] at hlen
    rw [List.take_left' (by simp), List.take_range, Nat.min_eq_left (by omega)] at hnumbered
    exact hnumbered
  · rw [hserved]
    have hcount := h.count
    have hbelow := h.below
    rcases h.held_part hvs hp hend with hnil | ⟨hmore, v, hv, hpart⟩
    · rw [hnil, List.append_nil]
      exact frames_take_mono codec vs (by omega)
    · have hlt := (List.getElem?_eq_some_iff.mp hv).1
      refine List.IsPrefix.trans ?_ (frames_take_mono codec vs (m := w.fc.readCount + 1) (by omega))
      rw [frames_take_succ hv, List.prefix_append_right_inj]
      exact hpart

/-- A loop that cannot go on although it is to decode more lacks bytes of the next frame. -/
theorem Serving.short (h : Serving codec vs w unread held) (hvs : ∀ v ∈ vs, Framable codec v)
    (hloop : w.fc.readLoop ≠ .returned) (hstop : w.resume codec = none) {v : V}
    (hv : vs[w.fc.readCount]? = some v) : ¬ frame codec v <+: held ++ unread := by
  intro hwhole
  have hfr := hvs v (List.mem_of_getElem? hv)
  have hmid := h.mid
  rw [World.resume] at hstop
  rw [frame_eq] at hwhole
  generalize w.fc.readLoop = readLoop at hmid hloop hstop
  generalize w.channel.readers = readers at hmid
  cases hmid with
  | yielded => cases hstop
  | waitLen hu =>
    have hlen := hwhole.length_le
    rw [List.length_append, prefixOf_length, List.nil_append] at hlen
    omega
  | gotLen hbs =>
    have hsome : getUint32 held 0 = some (beWord held).toNat := if_pos (by omega)
    dsimp only at hstop
    rw [hsome] at hstop
    cases hstop
  | waitBody hbs hu =>
    obtain ⟨hpre, hbody⟩ := prefix_parts ((prefixOf_length codec v).trans hbs.symm) hwhole
    have hlen := hbody.length_le
    rw [← hpre, beWord_prefixOf hfr] at hu
    omega
  | @gotBody bs body hbs hb =>
    dsimp only at hstop
    cases hd : codec.decode body with
    | none =>
      rw [hd] at hstop
      cases hstop
    | some v =>
      rw [hd] at hstop
      cases hstop
  | returned => exact hloop rfl

/-- Once the frames have come in, a loop that cannot go on has decoded them all. -/
theorem Serving.decoded_all (h : Serving codec vs w unread held) (hvs : ∀ v ∈ vs, Framable codec v)
    (hp : w.arrived <+: frames codec vs ++ tail) (hend : Ends vs tail w.fc.readLimit)
    (hin : frames codec (served vs w.fc.readLimit) <+: w.arrived) (hstop : w.resume codec = none) :
    served vs w.fc.readLimit = vs.take w.fc.readCount ∧ held = [] := by
  obtain ⟨n, hserved, hn, hle, hn'⟩ := served_eq vs w.fc.readLimit
  have hcount := h.count
  have hbelow := h.below
  rw [hserved] at hin ⊢
  by_cases hloop : w.fc.readLoop = .returned
  · obtain ⟨hpos, hreached⟩ := h.limit.mp hloop
    exact ⟨by rw [show n = w.fc.readCount by omega], Midframe.returned_held (hloop ▸ h.mid)⟩
  · have hmore := mt h.limit.mpr hloop
    rcases h.next hp (.inr hend) hloop with ⟨hall, hnil, -⟩ | ⟨v, hv, -⟩
    · exact ⟨by rw [show n = w.fc.readCount by omega], hnil⟩
    · have hlt := (List.getElem?_eq_some_iff.mp hv).1
      refine absurd ?_ (h.short hvs hloop hstop hv)
      have hnext := (frames_take_mono codec vs (m := w.fc.readCount + 1) (n := n) (by omega)).trans hin
      rw [frames_take_succ hv, h.taken, List.prefix_append_right_inj] at hnext
      exact hnext

theorem Serving.complete (h : Serving codec vs w unread held) (hvs : ∀ v ∈ vs, Framable codec v)
    (hp : w.arrived <+: frames codec vs ++ tail) (hend : Ends vs tail w.fc.readLimit)
    (hin : frames codec (served vs w.fc.readLimit) <+: w.arrived) (hstop : w.resume codec = none) :
    Complete codec vs w.fc.readLimit w := by
  obtain ⟨hserved, hnil⟩ := h.decoded_all hvs hp hend hin hstop
  refine ⟨fun k v hk hv => ?_, unread, h.buffered.buf, ?_⟩
  · rw [hserved] at hv
    have hlt := (List.getElem?_eq_some_iff.mp hv).1
    -- the call is among the answered ones, or its value would be in `buf` while it waits
    have hk' : k < w.resolved.length := by
      have hcalls := congrArg List.length h.numbered
      have hvalues := congrArg List.length h.handed
      rw [List.length_append, List.length_map, List.length_range] at hcalls
      rw [List.length_append, List.length_map] at hvalues
      rcases h.apart with h0 | h0
      · rw [h0, List.length_nil] at hcalls
        omega
      · rw [h0, List.length_nil] at hvalues
        omega
    obtain ⟨hkey, hval, -⟩ := h.resolved (List.getElem?_eq_getElem hk')
    have hv' : vs[k]? = some v := by
      rw [List.getElem?_take] at hv
      split at hv
      · exact hv
      · cases hv
    rw [hv'] at hval
    have hpair : w.resolved[k] = (k, v) := Prod.ext hkey (Option.some.inj hval).symm
    rw [← hpair]
    exact List.getElem_mem hk'
  · rw [h.taken, hnil, hserved]
    rfl

/-- By itself the loop comes to a point where it cannot go on. -/
theorem Serving.settles (h : Serving codec vs w unread held) (hvs : ∀ v ∈ vs, Framable codec v)
    (hp : w.arrived <+: frames codec vs ++ tail) (hend : Ends vs tail w.fc.readLimit) :
    ∃ w' unread' held', Run (step codec) ByItself w w' ∧ Serving codec vs w' unread' held' ∧
      w'.resume codec = none ∧ w'.arrived = w.arrived ∧ w'.fc.readLimit = w.fc.readLimit ∧
      w'.calls = w.calls := by
  generalize hm : 2 * unread.length + w.fc.readLoop.left = m
  induction m using Nat.strongRecOn generalizing w unread held with
  | ind m ih =>
    cases hs : w.resume codec with
    | none => exact ⟨w, unread, held, .start, h, hs, rfl, rfl, rfl⟩
    | some w1 =>
      obtain ⟨unread1, held1, h1, harrived, hlimit, hcalls, hless⟩ := h.resume hvs hp (.inr hend) hs
      obtain ⟨w', unread', held', run, h', hstop, harrived', hlimit', hcalls'⟩ :=
        ih _ (hm ▸ hless) h1 (harrived ▸ hp) (hlimit ▸ hend) rfl
      have first : Run (step codec) ByItself w w1 := .step .resume .start rfl hs
      exact ⟨w', unread', held', first.trans run, h', hstop, harrived'.trans harrived,
        hlimit'.trans hlimit, hcalls'.trans hcalls⟩

end Stream

/-- **The frame codec.** Whatever the data messages into which the frames of the values are
cut, and however they interleave with the read loop and the calls of `decode`: the calls get
the values in order, each at most once, and the loop takes no byte beyond the frames it is
to decode. Once these have come in, the loop by itself comes to a point where it cannot go
on, and there every call that has a value was answered and the bytes behind the frames are
in the channel. -/
theorem frames_delivered (codec : Codec V) (vs : List V) (hvs : ∀ v ∈ vs, Framable codec v)
    (tail : List UInt8) (readLimit : Int) (hend : Ends vs tail readLimit) {channel : Channel ω}
    {bs : List UInt8} (hc : channel.Unread bs) (hr : channel.readers = [])
    (hbs : bs <+: frames codec vs ++ tail) {w : World V ω}
    (run : Run (step codec) (Carries (frames codec vs ++ tail)) (start channel bs readLimit) w) :
    Delivered codec vs readLimit w ∧
      (frames codec (served vs readLimit) <+: w.arrived →
        (w.resume codec = none → Complete codec vs readLimit w) ∧
        ∃ w', Run (step codec) ByItself w w' ∧ w'.resume codec = none ∧ w'.calls = w.calls ∧
          w'.arrived = w.arrived ∧ Complete codec vs readLimit w') := by
  obtain ⟨unread, held, h, hp, rfl⟩ := Run.serving hvs hend hc hr hbs run
  refine ⟨h.delivered hvs hp hend, fun hin => ⟨h.complete hvs hp hend hin, ?_⟩⟩
  obtain ⟨w', unread', held', run', h', hstop, harrived, hlimit, hcalls⟩ := h.settles hvs hp hend
  have hcomplete := h'.complete hvs (harrived ▸ hp) (hlimit ▸ hend) (by rw [hlimit, harrived]; exact hin)
    hstop
  exact ⟨w', run', hstop, hcalls, harrived, hlimit ▸ hcomplete⟩

/-- A channel as a session makes it. -/
def opened : Channel Unit :=
  { Channel.new with
    maxIncomingPayload := channelMaxPacket, myWindow := channelWindowSize, readBuf := some [] }

/-- A value is one byte. -/
def byteCodec : Codec UInt8 := { encode := fun v => [v], decode := List.head? }

theorem byteCodec_framable (v : UInt8) : Framable byteCodec v :=
  ⟨by simp [byteCodec], by simp [byteCodec], rfl⟩

/-- One frame in three pieces and two more bytes, with a read limit of one. -/
theorem frames_delivered_run :
    ∃ w : World UInt8 Unit, Complete byteCodec [7] 1 w ∧ w.resolved = [(0, 7)] ∧
      w.channel.readBuf = some [8, 9] := by
  obtain ⟨w, run, hw⟩ := Run.of_exec (step byteCodec) (Carries (frames byteCodec [7] ++ [8, 9]))
    (start opened [] 1)
    [.decode, .resume, .arrive [0, 0], .arrive [0, 1, 7], .resume, .arrive [8, 9], .resume]
    (fun w => decide (w.resume byteCodec = none ∧ w.arrived = [0, 0, 0, 1, 7, 8, 9] ∧
      w.resolved = [(0, 7)] ∧ w.channel.readBuf = some [8, 9])) (by decide +kernel)
  simp only [decide_eq_true_eq] at hw
  obtain ⟨hstop, harrived, hresolved, hleft⟩ := hw
  have hin : frames byteCodec (served [7] 1) <+: w.arrived := harrived ▸ (by decide)
  have hopened : opened.Unread [] := ⟨rfl, rfl⟩
  have hdelivered :=
    frames_delivered byteCodec [7] (fun v _ => byteCodec_framable v) [8, 9] 1 (.inr (by decide))
      hopened rfl List.nil_prefix run
  exact ⟨w, (hdelivered.2 hin).1 hstop, hresolved, hleft⟩

end Qtalk.Js.Rpc
