import Qtalk.Js.Bytes
import Qtalk.Js.Util

/-!
# The reading side of a channel

`Channel` of `javascript/mux/channel.ts` with the methods that touch nothing but the
channel itself: `read` and `handleData`. A parked read is known by the number of its
promise and its length.
-/

namespace Qtalk.Js

/-- The promise of a `read`: not settled, or resolved with undefined or with data. -/
inductive ReadResult where
  | pending
  | undefined
  | data (bs : List UInt8)
  deriving DecidableEq, Repr

def channelMaxPacket : Nat := 2 ^ 15
def channelWindowSize : Nat := 64 * channelMaxPacket

/-- `Channel`, without its session; `ω` are the waiters of its `ready` queue. -/
structure Channel (ω : Type) where
  localId : Nat
  remoteId : Nat
  maxIncomingPayload : Nat
  maxRemotePayload : Nat
  ready : Queue Bool ω
  sentEOF : Bool
  gotEOF : Bool
  sentClose : Bool
  remoteWin : Nat
  myWindow : Nat
  readBuf : Option (List UInt8)
  readers : List (Nat × Nat)
  deriving DecidableEq, Repr

namespace Channel

variable {ω : Type}

/-- The constructor. -/
def new : Channel ω :=
  { localId := 0, remoteId := 0, maxIncomingPayload := 0, maxRemotePayload := 0,
    ready := .new, sentEOF := false, gotEOF := false, sentClose := false, remoteWin := 0,
    myWindow := 0, readBuf := none, readers := [] }

/-- `tryRead`, the body of `read(len)` with promise `p`. -/
def tryRead (c : Channel ω) (p len : Nat) : ReadResult × Channel ω :=
  match c.readBuf with
  | none => (.undefined, c)
  | some readBuf =>
    if len = 0 ∧ 0 < readBuf.length then (.data readBuf, { c with readBuf := some [] })
    else if len ≤ readBuf.length then
      let left := readBuf.drop len
      (.data (readBuf.take len),
        { c with readBuf := if left = [] ∧ c.gotEOF = true then none else some left })
    else (.pending, { c with readers := c.readers ++ [(p, len)] })

/-- The assignments of `handleData`; its `concat` has the right total (`concat_eq`). -/
def take (c : Channel ω) (length : Nat) (data : List UInt8) : Channel ω :=
  { c with myWindow := c.myWindow - length, readBuf := c.readBuf.map (· ++ data) }

/-- `handleData`, and what the reader it wakes comes to. -/
def handleData (c : Channel ω) (length : Nat) (data : List UInt8) :
    Except String (Option (Nat × ReadResult) × Channel ω) :=
  if c.maxIncomingPayload < length then
    .error "incoming packet exceeds maximum payload size"
  else if c.myWindow < length then .error "remote side wrote too much"
  else
    match c.readers with
    | [] => .ok (none, c.take length data)
    | (p, len) :: readers =>
      let (res, c) := tryRead { c.take length data with readers } p len
      .ok (some (p, res), c)

/-- A channel that a codec alone will read: the bytes that came in so far, and no end. -/
structure Unread (c : Channel ω) (bs : List UInt8) : Prop where
  buf : c.readBuf = some bs
  more : c.gotEOF = false

theorem Unread.served {c : Channel ω} {bs : List UInt8} (h : c.Unread bs) (p : Nat) {len : Nat}
    (hlen : 0 < len) (hle : len ≤ bs.length) :
    c.tryRead p len = (.data (bs.take len), { c with readBuf := some (bs.drop len) }) := by
  rw [tryRead, h.buf]
  dsimp only
  rw [if_neg (by omega), if_pos hle, if_neg (by rw [h.more]; simp)]

theorem Unread.parked {c : Channel ω} {bs : List UInt8} (h : c.Unread bs) (p : Nat) {len : Nat}
    (hlt : bs.length < len) :
    c.tryRead p len = (.pending, { c with readers := c.readers ++ [(p, len)] }) := by
  rw [tryRead, h.buf]
  dsimp only
  rw [if_neg (by omega), if_neg (by omega)]

/-- A read by the only reader: it gets its bytes, or it parks. -/
theorem Unread.tryRead_cases {c : Channel ω} {bs : List UInt8} (h : c.Unread bs)
    (hr : c.readers = []) (p : Nat) {len : Nat} (hlen : 0 < len) :
    (len ≤ bs.length ∧ (c.tryRead p len).1 = .data (bs.take len) ∧
      (c.tryRead p len).2.Unread (bs.drop len) ∧ (c.tryRead p len).2.readers = []) ∨
    (bs.length < len ∧ (c.tryRead p len).1 = .pending ∧ (c.tryRead p len).2.Unread bs ∧
      (c.tryRead p len).2.readers = [(p, len)]) := by
  rcases Nat.lt_or_ge bs.length len with hlt | hle
  · rw [h.parked p hlt, hr]
    exact .inr ⟨hlt, rfl, ⟨h.buf, h.more⟩, rfl⟩
  · rw [h.served p hlen hle]
    exact .inl ⟨hle, rfl, ⟨rfl, h.more⟩, hr⟩

theorem Unread.take {c : Channel ω} {bs : List UInt8} (h : c.Unread bs) (length : Nat)
    (data : List UInt8) : (c.take length data).Unread (bs ++ data) :=
  ⟨by rw [Channel.take, h.buf]; rfl, h.more⟩

/-- What the reader that `handleData` wakes finds. -/
def taken (c : Channel ω) (length : Nat) (data : List UInt8) (readers : List (Nat × Nat)) : Channel ω :=
  { c with myWindow := c.myWindow - length, readBuf := c.readBuf.map (· ++ data), readers }

/-- What `handleData` checks and does where it throws nothing. -/
theorem handleData_ok {c ch : Channel ω} {length : Nat} {data : List UInt8}
    {woken : Option (Nat × ReadResult)} (h : c.handleData length data = .ok (woken, ch)) :
    length ≤ c.maxIncomingPayload ∧ length ≤ c.myWindow ∧
      ((c.readers = [] ∧ woken = none ∧ ch = c.take length data) ∨
        ∃ p len readers, c.readers = (p, len) :: readers ∧
          woken = some (p, ((c.taken length data readers).tryRead p len).1) ∧
          ch = ((c.taken length data readers).tryRead p len).2) := by
  rw [handleData] at h
  split at h
  · cases h
  · next hmax =>
    split at h
    · cases h
    · next hwin =>
      refine ⟨Nat.le_of_not_lt hmax, Nat.le_of_not_lt hwin, ?_⟩
      split at h
      · next hr =>
        cases h
        exact .inl ⟨hr, rfl, rfl⟩
      · next p len readers hr =>
        injection h with h
        injection h with h1 h2
        exact .inr ⟨p, len, readers, hr, h1.symm, h2.symm⟩

/-- Data accepted while nobody reads. -/
theorem handleData_idle {c : Channel ω} {data : List UInt8} {length : Nat}
    {res : Option (Nat × ReadResult) × Channel ω} (hr : c.readers = [])
    (hd : c.handleData length data = .ok res) : res = (none, c.take length data) := by
  obtain ⟨woken, ch⟩ := res
  obtain ⟨-, -, ⟨-, h1, h2⟩ | ⟨p, len, readers, h, -⟩⟩ := handleData_ok hd
  · rw [h1, h2]
  · rw [hr] at h
    cases h

/-- Data accepted while one read is parked: the read is tried again. -/
theorem handleData_parked {c : Channel ω} {data : List UInt8} {length p len : Nat}
    {res : Option (Nat × ReadResult) × Channel ω} (hr : c.readers = [(p, len)])
    (hd : c.handleData length data = .ok res) :
    res = (some (p, (tryRead { c.take length data with readers := [] } p len).1),
      (tryRead { c.take length data with readers := [] } p len).2) := by
  obtain ⟨woken, ch⟩ := res
  obtain ⟨-, -, ⟨h, -⟩ | ⟨p', len', readers, h, h1, h2⟩⟩ := handleData_ok hd
  · rw [hr] at h
    cases h
  · rw [hr] at h
    cases h
    rw [h1, h2]
    rfl

end Channel

end Qtalk.Js
