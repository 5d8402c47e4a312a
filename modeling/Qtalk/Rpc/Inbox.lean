import Qtalk.Lib.Reader
import Qtalk.Mux.Channel

/-!
# The reading end of a channel

`channel.Read` for one reader on a connection that stays up, as an `io.Reader`: the
elements in `pending`, the data of the packets on their way, and a schedule of how many
of them the session loop hands over before each `Read`. A `Read` that finds nothing waits
for the next packet. What it gives depends on the bytes only through their number: on
`Timing`, the sizes and the schedule.
-/

namespace Qtalk.Rpc
open Qtalk.Lib Qtalk.Mux

/-- `head` and `next` are the elements of the buffer; `ends` says that the sender ends
the stream behind the last packet. A packet without data gives a reader nothing and is
left out. -/
structure Inbox where
  head : List UInt8 := []
  next : List (List UInt8) := []
  packets : List (List UInt8)
  full : ∀ p ∈ packets, p ≠ []
  ends : Bool
  /-- how many packets come in before the `i`-th `Read` looks at the buffer -/
  arrive : Nat → Nat

/-- The number of unread bytes in the buffer, the sizes of the packets to come and their
schedule. -/
structure Timing where
  avail : Nat
  sizes : List Nat
  arrive : Nat → Nat

namespace Timing

/-- How many packets have come in when a `Read` into `n` bytes starts to copy. -/
def arrivals (t : Timing) (n : Nat) : Nat :=
  if 0 < n ∧ t.avail = 0 then max 1 (t.arrive 0) else t.arrive 0

/-- How many bytes it finds. -/
def ready (t : Timing) (n : Nat) : Nat := t.avail + (t.sizes.take (t.arrivals n)).sum

/-- How many bytes it copies. -/
def count (t : Timing) (n : Nat) : Nat := min n (t.ready n)

def read (t : Timing) (n : Nat) : Timing where
  avail := t.ready n - n
  sizes := t.sizes.drop (t.arrivals n)
  arrive i := t.arrive (i + 1)

theorem count_le (t : Timing) (n : Nat) : t.count n ≤ n := Nat.min_le_left _ _

/-- A `Read` fills its buffer exactly when all the bytes have come in. -/
theorem count_eq_iff {t : Timing} {n : Nat} : t.count n = n ↔ n ≤ t.ready n := by
  unfold count; omega

end Timing

namespace Inbox

/-- The bytes the reader has not seen. -/
def stream (i : Inbox) : List UInt8 := i.head ++ i.next.flatten ++ i.packets.flatten

def timing (i : Inbox) : Timing where
  avail := (i.head ++ i.next.flatten).length
  sizes := i.packets.map List.length
  arrive := i.arrive

/-- `pending`, when `k` more packets have come in. -/
def pending (i : Inbox) (k : Nat) : Buffer :=
  let b := (i.packets.take k).foldl Buffer.write { head := i.head, next := i.next }
  if i.ends ∧ i.packets.drop k = [] then b.eof else b

/-- The reading end when `k` packets have come in and the buffer is left as `b`. -/
def later (i : Inbox) (k : Nat) (b : Buffer) : Inbox where
  head := b.head
  next := b.next
  packets := i.packets.drop k
  full p hp := i.full p (List.mem_of_mem_drop hp)
  ends := i.ends
  arrive j := i.arrive (j + 1)

end Inbox

/-- `channel.Read`. -/
def channelRead : Reader Inbox := fun n i =>
  let k := i.timing.arrivals n
  let b := i.pending k
  match b.Read n with
  | .bytes bs b => (.ok bs, i.later k b)
  | .eof => (.error .eof, i.later k b)
  | .wait => (.error .blocked, i.later k b)

namespace Inbox

theorem foldl_write (b : Buffer) (ps : List (List UInt8)) :
    (ps.foldl Buffer.write b).content = b.content ++ ps.flatten := by
  induction ps generalizing b with
  | nil => simp
  | cons p ps ih => simp [ih]

theorem foldl_write_closed (b : Buffer) (ps : List (List UInt8)) :
    (ps.foldl Buffer.write b).closed = b.closed := by
  induction ps generalizing b with
  | nil => rfl
  | cons p ps ih => rw [List.foldl_cons, ih]; rfl

theorem pending_content (i : Inbox) (k : Nat) :
    (i.pending k).content = i.head ++ i.next.flatten ++ (i.packets.take k).flatten := by
  have h := foldl_write { head := i.head, next := i.next } (i.packets.take k)
  rw [pending]
  split
  · rw [Buffer.content_eof, h]
    rfl
  · exact h

theorem stream_eq (i : Inbox) (k : Nat) :
    i.stream = (i.pending k).content ++ (i.packets.drop k).flatten := by
  rw [pending_content, List.append_assoc, ← List.flatten_append, List.take_append_drop, stream]

theorem pending_length (i : Inbox) (n : Nat) :
    (i.pending (i.timing.arrivals n)).content.length = i.timing.ready n := by
  rw [pending_content, List.length_append, Timing.ready, List.length_flatten, List.map_take]
  rfl

/-- A `Read` that wants bytes and has some coming finds some. -/
theorem pending_ne_nil {i : Inbox} {n : Nat} (hn : 0 < n) (hs : i.stream ≠ []) :
    (i.pending (i.timing.arrivals n)).content ≠ [] := by
  rw [pending_content]
  by_cases hb : i.head ++ i.next.flatten = []
  · -- the buffer is empty: the `Read` waits for the next packet
    rw [stream, hb, List.nil_append] at hs
    rw [hb, List.nil_append]
    have ha : i.timing.avail = 0 := by rw [timing, hb]; rfl
    have hk : 1 ≤ i.timing.arrivals n := by
      rw [Timing.arrivals, if_pos ⟨hn, ha⟩]
      exact Nat.le_max_left _ _
    cases hp : i.packets with
    | nil => rw [hp] at hs; exact absurd rfl hs
    | cons p ps =>
      have hpne : p ≠ [] := i.full p (by rw [hp]; exact List.mem_cons_self)
      obtain ⟨j, hj⟩ := Nat.exists_eq_add_of_le' hk
      rw [hj, List.take_succ_cons, List.flatten_cons]
      exact fun h => hpne (List.append_eq_nil_iff.mp h).1
  · exact fun h => hb (List.append_eq_nil_iff.mp h).1

/-- **What a `Read` gives.** Bytes from the front of the stream, as many as fit and have
come in. -/
theorem read_bytes {i : Inbox} {n : Nat} (h : n = 0 ∨ i.stream ≠ []) :
    ∃ i', channelRead n i = (.ok (i.stream.take (i.timing.count n)), i') ∧
      i'.stream = i.stream.drop (i.timing.count n) ∧ i'.timing = i.timing.read n ∧
      i'.ends = i.ends := by
  obtain ⟨k, hk⟩ : ∃ k, i.timing.arrivals n = k := ⟨_, rfl⟩
  have hlen := hk ▸ i.pending_length n
  have hbytes : ∃ b', (i.pending k).Read n = .bytes ((i.pending k).content.take n) b' ∧
      b'.content = (i.pending k).content.drop n := by
    rcases Nat.eq_zero_or_pos n with rfl | hn
    · exact ⟨_, rfl, rfl⟩
    · have hne := hk ▸ pending_ne_nil hn (h.resolve_left (Nat.ne_of_gt hn))
      obtain ⟨b', hr, hc, -⟩ := Buffer.Read_pos hn hne
      exact ⟨b', hr, hc⟩
  obtain ⟨b', hr, hc⟩ := hbytes
  have hcount : i.timing.count n = min n (i.pending k).content.length := by
    rw [hlen, Timing.count]
  refine ⟨i.later k b', ?_, ?_, ?_, rfl⟩
  · simp only [channelRead, hk, hr]
    rw [hcount, i.stream_eq k, List.take_append_of_le_length (Nat.min_le_right _ _),
      List.take_eq_take_min]
  · have hs : (i.later k b').stream = b'.content ++ (i.packets.drop k).flatten := rfl
    rw [hs, hc, hcount, i.stream_eq k, List.drop_append_of_le_length (Nat.min_le_right _ _),
      List.drop_eq_drop_min]
  · have ht : (i.later k b').timing
        = ⟨b'.content.length, (i.packets.drop k).map List.length, fun j => i.arrive (j + 1)⟩ := rfl
    rw [ht, hc, List.length_drop, hlen, Timing.read, hk, timing, List.map_drop]

/-- Behind the last byte a `Read` reports the end, or waits for ever. -/
theorem read_end {i : Inbox} {n : Nat} (hn : 0 < n) (hs : i.stream = []) :
    (channelRead n i).1 = .error (if i.ends then .eof else .blocked) := by
  obtain ⟨k, hk⟩ : ∃ k, i.timing.arrivals n = k := ⟨_, rfl⟩
  have hc : (i.pending k).content = [] := by
    have := i.stream_eq k
    rw [hs] at this
    exact (List.append_eq_nil_iff.mp this.symm).1
  have hp : i.packets = [] := by
    cases hp : i.packets with
    | nil => rfl
    | cons p ps =>
      rw [stream, hp, List.flatten_cons] at hs
      simp only [List.append_eq_nil_iff] at hs
      exact absurd hs.2.1 (i.full p (by rw [hp]; exact List.mem_cons_self))
  have hclosed : (i.pending k).closed = i.ends := by
    rw [pending, hp]
    cases he : i.ends <;> simp [Buffer.eof]
  simp only [channelRead, hk]
  rw [Buffer.Read_empty hn hc, hclosed]
  cases i.ends <;> rfl

/-- One more packet comes in: what `handleData` does to the buffer. -/
theorem pending_succ {i : Inbox} {k : Nat} {p : List UInt8} (hp : i.packets[k]? = some p)
    (he : i.ends = false) : i.pending (k + 1) = (i.pending k).write p := by
  simp [pending, he, List.take_add_one, hp]

theorem later_pending {i : Inbox} {k : Nat} {b : Buffer} (hb : b.closed = (i.pending k).closed) :
    (i.later k b).pending 0 = b := by
  have hopen : ((i.packets.take k).foldl Buffer.write { head := i.head, next := i.next }).closed = false :=
    foldl_write_closed _ _
  obtain ⟨head, next, closed⟩ := b
  rw [pending] at hb
  simp only [pending, later, List.take_zero, List.foldl_nil, List.drop_zero]
  split at hb
  · next h => rw [if_pos h, show closed = true from hb]; rfl
  · next h => rw [if_neg h, show closed = false from hb.trans hopen]

/-- The `Read` of a channel object that has this buffer. -/
theorem read_channel {i i' : Inbox} {n : Nat} {ch : Channel} {bs : List UInt8}
    (hch : ch.pending = i.pending (i.timing.arrivals n)) (h : channelRead n i = (.ok bs, i')) :
    ∃ ch', ch.Read n = some ch' ∧ ch'.got = ch.got ++ bs ∧ ch'.pending = i'.pending 0 := by
  simp only [channelRead, ← hch] at h
  cases hr : ch.pending.Read n with
  | eof | wait => rw [hr] at h; cases h
  | bytes bs' b =>
    rw [hr] at h
    cases h
    have hb : b.closed = (i.pending (i.timing.arrivals n)).closed := by
      rw [(Buffer.Read_bytes hr).2.2, hch]
    rw [later_pending hb, Channel.Read, hr]
    cases bs with
    | nil => exact ⟨_, rfl, (List.append_nil _).symm, rfl⟩
    | cons b bs => exact ⟨_, rfl, rfl, rfl⟩

end Inbox

end Qtalk.Rpc
