import Qtalk.Lib.Chain
import Qtalk.Mux.Util

/-!
# The linked list behind the buffer

`buffer` of `golang/mux/util.go` on the heap: `head` and `tail` are pointers, an element is a
cell, and `Read` is the loop of the source, turn by turn. `ByteQueue` is what the buffer is
for. A reader that waits has copied nothing yet, so it goes on as a new `Read` of the same
size would (`Represents.loop`).
-/

namespace Qtalk.Mux
open Qtalk.Lib

/-- `element`; `val` is `buf`. -/
abbrev Element := Cell (List UInt8)

/-- `buffer`. -/
structure LinkedBuffer where
  heap : List Element
  head : Nat
  tail : Nat
  closed : Bool := false
  deriving DecidableEq, Repr

/-- What a `Read` gives its caller. -/
inductive Answer where
  /-- the bytes copied, and whether the error is `io.EOF` -/
  | returned (bs : List UInt8) (eof : Bool)
  | blocks
  deriving DecidableEq, Repr

inductive BufferOp where
  | write (buf : List UInt8)
  | eof
  | read (n : Nat)
  deriving DecidableEq, Repr

/-! ## The byte queue -/

/-- A flat queue of bytes with a flag. -/
structure ByteQueue where
  content : List UInt8 := []
  closed : Bool := false
  deriving DecidableEq, Repr

namespace ByteQueue

def read (q : ByteQueue) (n : Nat) : ByteQueue × Answer :=
  if n = 0 then (q, .returned [] false)
  else if q.content ≠ [] then
    ({ q with content := q.content.drop n }, .returned (q.content.take n) false)
  else if q.closed then (q, .returned [] true)
  else (q, .blocks)

def step (q : ByteQueue) : BufferOp → ByteQueue × List Answer
  | .write buf => ({ q with content := q.content ++ buf }, [])
  | .eof => ({ q with closed := true }, [])
  | .read n => ((q.read n).1, [(q.read n).2])

/-- The queue after a sequence of operations, and what the reads among them gave. -/
def run : ByteQueue → List BufferOp → ByteQueue × List Answer
  | q, [] => (q, [])
  | q, op :: ops => ((run (q.step op).1 ops).1, (q.step op).2 ++ (run (q.step op).1 ops).2)

end ByteQueue

/-! ## The list -/

/-- `Read` at the head of its loop: `room` is `len(buf)`, `got` what was copied so far. -/
structure Reading where
  b : LinkedBuffer
  room : Nat
  got : List UInt8 := []
  deriving DecidableEq, Repr

/-- What a turn of the loop comes to. -/
inductive ReadTurn where
  | again (r : Reading)
  /-- out of the loop; `eof` if `err` is `io.EOF` -/
  | out (eof : Bool)
  /-- `b.Cond.Wait()` -/
  | wait
  | nilPointer

/-- What the loop comes to. -/
inductive ReadOutcome where
  | returned (b : LinkedBuffer) (bs : List UInt8) (eof : Bool)
  | waits (r : Reading)
  | nilPointer
  /-- the loop has not ended -/
  | running
  deriving DecidableEq, Repr

/-- The body of the loop. -/
def Reading.turn (r : Reading) : ReadTurn :=
  match r.b.heap[r.b.head]? with
  | none => .nilPointer
  | some head =>
    if head.val.length > 0 then
      let k := min r.room head.val.length
      .again {
        b := { r.b with heap := r.b.heap.set r.b.head { head with val := head.val.drop k } }
        room := r.room - k
        got := r.got ++ head.val.take k }
    else if head.val.length = 0 ∧ r.b.head ≠ r.b.tail then
      match head.next with
      | some next => .again { r with b := { r.b with head := next } }
      -- the next turn dereferences it
      | none => .nilPointer
    else if r.got.length > 0 then .out false
    else if r.b.closed then .out true
    else .wait

/-- The loop, for a number of turns. -/
def Reading.loop : Nat → Reading → ReadOutcome
  | 0, _ => .running
  | fuel + 1, r =>
    if r.room = 0 then .returned r.b r.got false
    else
      match r.turn with
      | .again r => r.loop fuel
      | .out eof => .returned r.b r.got eof
      | .wait => .waits r
      | .nilPointer => .nilPointer

namespace LinkedBuffer

def newBuffer : LinkedBuffer := { heap := [{ val := [] }], head := 0, tail := 0 }

/-- `write`; `none` where `b.tail` is not an element. -/
def write (b : LinkedBuffer) (buf : List UInt8) : Option LinkedBuffer := do
  let tail ← b.heap[b.tail]?
  some { b with
    heap := b.heap.set b.tail { tail with next := some b.heap.length } ++ [{ val := buf }]
    tail := b.heap.length }

def eof (b : LinkedBuffer) : LinkedBuffer := { b with closed := true }

/-- More turns than a `Read` takes. -/
def turns (b : LinkedBuffer) : Nat := 2 * b.heap.length + 2

/-- `Read` into a buffer of length `n`; `none` where it panics or does not end. -/
def Read (b : LinkedBuffer) (n : Nat) : Option (LinkedBuffer × Answer) :=
  match Reading.loop b.turns { b, room := n } with
  | .returned b bs eof => some (b, .returned bs eof)
  | .waits r => some (r.b, .blocks)
  | .nilPointer | .running => none

def step (b : LinkedBuffer) : BufferOp → Option (LinkedBuffer × List Answer)
  | .write buf => do return (← b.write buf, [])
  | .eof => some (b.eof, [])
  | .read n => do
    let (b, answer) ← b.Read n
    return (b, [answer])

def run : LinkedBuffer → List BufferOp → Option (LinkedBuffer × List Answer)
  | b, [] => some (b, [])
  | b, op :: ops => do
    let (b, answers) ← b.step op
    let (b, more) ← b.run ops
    return (b, answers ++ more)

end LinkedBuffer

/-! ## The list holds the queue -/

/-- The chain from `head` reaches `tail`, and its elements hold the bytes of the queue. -/
structure Represents (b : LinkedBuffer) (q : ByteQueue) : Prop where
  chain : ∃ bufs, Chain b.heap b.head bufs b.tail ∧ bufs.flatten = q.content
  closed : b.closed = q.closed

/-- What the loop comes to, from any point of a `Read`. -/
def ReadOutcome.Is (o : ReadOutcome) (r : Reading) (b : LinkedBuffer) (q : ByteQueue) : Prop :=
  if r.room = 0 ∨ r.got ++ q.content ≠ [] then o = .returned b (r.got ++ q.content.take r.room) false
  else if q.closed then o = .returned b [] true
  else o = .waits { r with b }

/-- How many turns are left, at most. -/
def Reading.rank (r : Reading) (bufs : List (List UInt8)) : Nat :=
  if r.room = 0 then 0
  else 2 * bufs.length + if bufs.head? = some [] then 0 else 1

namespace Reading

/-- What a turn copies is the front of the bytes, what it leaves is the rest. -/
theorem copied (v c : List UInt8) (n : Nat) :
    (v ++ c).take n =
        v.take (min n v.length) ++ (v.drop (min n v.length) ++ c).take (n - min n v.length) ∧
      (v ++ c).drop n = (v.drop (min n v.length) ++ c).drop (n - min n v.length) := by
  have hlen : (v.take (min n v.length)).length = min n v.length := by
    rw [List.length_take]
    omega
  have hsplit : v ++ c = v.take (min n v.length) ++ (v.drop (min n v.length) ++ c) := by
    rw [← List.append_assoc, List.take_append_drop]
  constructor
  · conv_lhs => rw [hsplit]
    rw [List.take_append, hlen, List.take_of_length_le (by omega)]
  · conv_lhs => rw [hsplit]
    rw [List.drop_append, hlen, List.drop_eq_nil_of_le (by omega), List.nil_append]

/-- A turn copies from the first element as many bytes as there is room for. -/
theorem turn_copies {r : Reading} {v : List UInt8} {vs : List (List UInt8)}
    (hc : Chain r.b.heap r.b.head (v :: vs) r.b.tail) (hv : v ≠ []) :
    ∃ heap, Chain heap r.b.head (v.drop (min r.room v.length) :: vs) r.b.tail ∧
      r.turn = .again {
        b := { r.b with heap }
        room := r.room - min r.room v.length
        got := r.got ++ v.take (min r.room v.length) } := by
  obtain ⟨next, hhead⟩ := hc.head
  refine ⟨_, hc.set hhead, ?_⟩
  rw [turn, hhead]
  exact if_pos (List.length_pos_iff.mpr hv)

/-- A turn drops the first element when it is used up and there is another one. -/
theorem turn_advances {r : Reading} {vs : List (List UInt8)}
    (hc : Chain r.b.heap r.b.head ([] :: vs) r.b.tail) (hne : r.b.head ≠ r.b.tail) :
    ∃ next, Chain r.b.heap next vs r.b.tail ∧ r.turn = .again { r with b := { r.b with head := next } } := by
  obtain ⟨next, hhead, rest⟩ := hc.advance hne
  refine ⟨next, rest, ?_⟩
  rw [turn, hhead]
  exact (if_neg (Nat.lt_irrefl 0)).trans (if_pos ⟨rfl, hne⟩)

/-- A turn on a last element that is used up returns what was copied, or the end, or it waits. -/
theorem turn_ends {r : Reading} {vs : List (List UInt8)}
    (hc : Chain r.b.heap r.b.head ([] :: vs) r.b.tail) (heq : r.b.head = r.b.tail) :
    vs = [] ∧ r.turn = if r.got ≠ [] then .out false else if r.b.closed then .out true else .wait := by
  obtain ⟨next, hhead⟩ := hc.head
  constructor
  · rw [heq] at hc
    obtain ⟨v, hv⟩ := hc.single
    cases hv
    rfl
  · rw [turn, hhead]
    refine (if_neg (Nat.lt_irrefl 0)).trans ((if_neg fun h => h.2 heq).trans ?_)
    by_cases hgot : r.got = []
    · rw [if_neg (not_not.mpr hgot), hgot]
      exact if_neg (Nat.lt_irrefl 0)
    · rw [if_pos hgot]
      exact if_pos (List.length_pos_iff.mpr hgot)

theorem rank_copied {r r' : Reading} {v : List UInt8} {vs : List (List UInt8)} {fuel : Nat}
    (hv : v ≠ []) (hr' : r'.room = r.room - min r.room v.length)
    (h : 2 * (v :: vs).length + (if (v :: vs).head? = some [] then 0 else 1) < fuel + 1) :
    r'.rank (v.drop (min r.room v.length) :: vs) < fuel := by
  rw [if_neg (by simpa using hv), List.length_cons] at h
  rw [rank]
  split
  · omega
  · next hleft =>
    -- there is room left, so the element is used up
    have hused : v.drop (min r.room v.length) = [] := List.drop_eq_nil_of_le (by omega)
    rw [hused, List.head?_cons, if_pos rfl, List.length_cons]
    omega

/-- The loop ends, and gives what the queue gives. -/
theorem loop_chain {fuel : Nat} {r : Reading} {bufs : List (List UInt8)}
    (hc : Chain r.b.heap r.b.head bufs r.b.tail) (hf : r.rank bufs < fuel) :
    ∃ b, Represents b { content := bufs.flatten.drop r.room, closed := r.b.closed } ∧
      (r.loop fuel).Is r b { content := bufs.flatten, closed := r.b.closed } := by
  induction fuel generalizing r bufs with
  | zero => omega
  | succ fuel ih =>
    rw [loop]
    by_cases hroom : r.room = 0
    · refine ⟨r.b, ⟨⟨bufs, hc, ?_⟩, rfl⟩, ?_⟩
      · rw [hroom, List.drop_zero]
      · rw [ReadOutcome.Is, if_pos (.inl hroom), if_pos hroom, hroom, List.take_zero, List.append_nil]
    · rw [if_neg hroom]
      rw [rank, if_neg hroom] at hf
      obtain ⟨v, vs, rfl⟩ := List.exists_cons_of_ne_nil hc.ne_nil
      rw [List.flatten_cons]
      by_cases hv : v = []
      · subst hv
        rw [List.nil_append]
        by_cases heq : r.b.head = r.b.tail
        · obtain ⟨rfl, hturn⟩ := turn_ends hc heq
          refine ⟨r.b, ⟨⟨[[]], hc, ?_⟩, rfl⟩, ?_⟩
          · rw [List.flatten_nil, List.drop_nil, List.flatten_cons, List.flatten_nil, List.append_nil]
          · rw [hturn, ReadOutcome.Is, List.flatten_nil, List.take_nil, List.append_nil]
            by_cases hgot : r.got = []
            · rw [if_neg (not_not.mpr hgot), if_neg (not_or.mpr ⟨hroom, not_not.mpr hgot⟩)]
              cases r.b.closed with
              | false => rfl
              | true => exact congrArg (ReadOutcome.returned r.b · true) hgot
            · rw [if_pos hgot, if_pos (.inr hgot)]
        · obtain ⟨next, rest, hturn⟩ := turn_advances hc heq
          rw [hturn]
          refine ih (r := { r with b := { r.b with head := next } }) rest ?_
          rw [rank, if_neg hroom]
          rw [List.length_cons] at hf
          split <;> omega
      · obtain ⟨heap, hc', hturn⟩ := turn_copies hc hv
        obtain ⟨htake, hdrop⟩ := copied v vs.flatten r.room
        rw [hturn]
        obtain ⟨b, hrep, his⟩ := ih (r := { b := { r.b with heap }, room := _, got := _ }) hc'
          (rank_copied hv rfl hf)
        rw [List.flatten_cons, ← hdrop] at hrep
        rw [List.flatten_cons] at his
        refine ⟨b, hrep, ?_⟩
        have hmore : (r.got ++ v.take (min r.room v.length)) ++
            (v.drop (min r.room v.length) ++ vs.flatten) = r.got ++ (v ++ vs.flatten) := by
          rw [List.append_assoc, ← List.append_assoc (v.take _), List.take_append_drop]
        have hne : r.got ++ (v ++ vs.flatten) ≠ [] := by simp [hv]
        rw [ReadOutcome.Is, if_pos (.inr (by rw [hmore]; exact hne)), List.append_assoc, ← htake] at his
        rw [ReadOutcome.Is, if_pos (.inr hne)]
        exact his

end Reading

/-- What the loop comes to where a `Read` of size `n` has this answer. -/
def ReadOutcome.ofAnswer (b : LinkedBuffer) (n : Nat) : Answer → ReadOutcome
  | .returned bs eof => .returned b bs eof
  | .blocks => .waits { b, room := n }

theorem ReadOutcome.Is.answer {o : ReadOutcome} {b b' : LinkedBuffer} {q : ByteQueue} {n : Nat}
    (h : o.Is { b, room := n } b' q) : o = .ofAnswer b' n (q.read n).2 := by
  dsimp only [ReadOutcome.Is] at h
  rw [List.nil_append, List.nil_append] at h
  rw [ByteQueue.read]
  by_cases hn : n = 0
  · rw [if_pos (.inl hn)] at h
    rw [if_pos hn, h, hn]
    rfl
  · rw [if_neg hn]
    by_cases hq : q.content = []
    · rw [if_neg (not_or.mpr ⟨hn, not_not.mpr hq⟩)] at h
      rw [if_neg (not_not.mpr hq)]
      cases hcl : q.closed with
      | false =>
        rw [hcl] at h
        exact h
      | true =>
        rw [hcl] at h
        exact h
    · rw [if_pos (.inr hq)] at h
      rw [if_pos hq]
      exact h

theorem ByteQueue.read_fst (q : ByteQueue) (n : Nat) :
    (q.read n).1 = { q with content := q.content.drop n } := by
  rw [read]
  split
  · next hn => rw [hn, List.drop_zero]
  · split
    · rfl
    · next hq =>
      have hnil : { q with content := q.content.drop n } = q := by
        cases q with
        | mk content closed =>
          cases not_not.mp hq
          rw [List.drop_nil]
      rw [hnil]
      split <;> rfl

namespace Represents

variable {b : LinkedBuffer} {q : ByteQueue}

theorem new : Represents .newBuffer {} := ⟨⟨[[]], .last rfl, rfl⟩, rfl⟩

/-- A `Read` ends, and gives what the queue gives; one that waits has copied nothing. -/
theorem loop (h : Represents b q) {n fuel : Nat} (hf : b.turns ≤ fuel) :
    ∃ b', Represents b' (q.read n).1 ∧
      Reading.loop fuel { b, room := n } = .ofAnswer b' n (q.read n).2 := by
  obtain ⟨bufs, hc, hcontent⟩ := h.chain
  have hlen := hc.length_le
  have htail := hc.lt_length
  have hrank : Reading.rank { b, room := n } bufs < fuel := by
    rw [LinkedBuffer.turns] at hf
    rw [Reading.rank]
    split
    · omega
    · split <;> omega
  obtain ⟨b', hrep, his⟩ := Reading.loop_chain (r := { b, room := n }) hc hrank
  have hq : ({ content := bufs.flatten, closed := b.closed } : ByteQueue) = q := by
    rw [hcontent, h.closed]
  refine ⟨b', ?_, ?_⟩
  · rw [ByteQueue.read_fst, ← hcontent, ← h.closed]
    exact hrep
  · rw [← hq]
    exact his.answer

theorem Read (h : Represents b q) (n : Nat) :
    ∃ b', b.Read n = some (b', (q.read n).2) ∧ Represents b' (q.read n).1 := by
  obtain ⟨b', hrep, hloop⟩ := h.loop (n := n) (Nat.le_refl _)
  refine ⟨b', ?_, hrep⟩
  rw [LinkedBuffer.Read, hloop]
  cases (q.read n).2 <;> rfl

theorem write (h : Represents b q) (buf : List UInt8) :
    ∃ b', b.write buf = some b' ∧ Represents b' { q with content := q.content ++ buf } := by
  obtain ⟨bufs, hc, hcontent⟩ := h.chain
  obtain ⟨last, htail⟩ : ∃ last, b.heap[b.tail]? = some last :=
    ⟨_, List.getElem?_eq_getElem hc.lt_length⟩
  let heap := b.heap.set b.tail { last with next := some b.heap.length } ++ [{ val := buf }]
  refine ⟨{ b with heap, tail := b.heap.length }, ?_, ⟨_, hc.append htail buf, ?_⟩, h.closed⟩
  · rw [LinkedBuffer.write, htail]
    rfl
  · rw [List.flatten_append, hcontent, List.flatten_cons, List.flatten_nil, List.append_nil]

theorem step (h : Represents b q) (op : BufferOp) :
    ∃ b', b.step op = some (b', (q.step op).2) ∧ Represents b' (q.step op).1 := by
  cases op with
  | write buf =>
    obtain ⟨b', hw, hrep⟩ := h.write buf
    refine ⟨b', ?_, hrep⟩
    rw [LinkedBuffer.step, hw]
    rfl
  | eof => exact ⟨_, rfl, h.chain, rfl⟩
  | read n =>
    obtain ⟨b', hr, hrep⟩ := h.Read n
    refine ⟨b', ?_, hrep⟩
    rw [LinkedBuffer.step, hr]
    rfl

theorem run (h : Represents b q) (ops : List BufferOp) :
    ∃ b', b.run ops = some (b', (q.run ops).2) ∧ Represents b' (q.run ops).1 := by
  induction ops generalizing b q with
  | nil => exact ⟨b, rfl, h⟩
  | cons op ops ih =>
    obtain ⟨b₁, hstep, h₁⟩ := h.step op
    obtain ⟨b₂, hrun, h₂⟩ := ih h₁
    refine ⟨b₂, ?_, h₂⟩
    rw [LinkedBuffer.run, hstep]
    simp only [bind, Option.bind_some, hrun]
    rfl

end Represents

/-- What a `Read` into a buffer that is not empty gives, in terms of the bytes available. -/
structure ReadsFront (b : LinkedBuffer) (q : ByteQueue) : Prop where
  bytes : ∀ n, 0 < n → q.content ≠ [] → ∃ b' bs rest, b.Read n = some (b', .returned bs false) ∧
    q.content = bs ++ rest ∧ bs.length = min n q.content.length ∧
      Represents b' { q with content := rest }
  eof : ∀ n, 0 < n → q.content = [] → q.closed = true →
    ∃ b', b.Read n = some (b', .returned [] true) ∧ Represents b' q
  blocks : ∀ n, 0 < n → q.content = [] → q.closed = false →
    ∃ b', b.Read n = some (b', .blocks) ∧ Represents b' q

theorem Represents.reads {b : LinkedBuffer} {q : ByteQueue} (h : Represents b q) : ReadsFront b q := by
  constructor
  · intro n hn hq
    obtain ⟨b', hr, hrep⟩ := h.Read n
    rw [ByteQueue.read, if_neg (by omega), if_pos hq] at hr hrep
    exact ⟨b', _, _, hr, (List.take_append_drop n _).symm, List.length_take, hrep⟩
  · intro n hn hq hcl
    obtain ⟨b', hr, hrep⟩ := h.Read n
    rw [ByteQueue.read, if_neg (by omega), if_neg (not_not.mpr hq), if_pos hcl] at hr hrep
    exact ⟨b', hr, hrep⟩
  · intro n hn hq hcl
    obtain ⟨b', hr, hrep⟩ := h.Read n
    rw [ByteQueue.read, if_neg (by omega), if_neg (not_not.mpr hq), if_neg (by simp [hcl])] at hr hrep
    exact ⟨b', hr, hrep⟩

/-- The linked list is a byte queue: over every sequence of operations the reads give what
those of the queue give, `head` reaches `tail`, and the loop ends. -/
theorem linked_refines (ops : List BufferOp) :
    ∃ b q answers, LinkedBuffer.newBuffer.run ops = some (b, answers) ∧
      ByteQueue.run {} ops = (q, answers) ∧ Represents b q ∧ ReadsFront b q ∧
      ∀ n fuel, b.turns ≤ fuel → Reading.loop fuel { b, room := n } ≠ .running ∧
        Reading.loop fuel { b, room := n } ≠ .nilPointer := by
  obtain ⟨b, hrun, h⟩ := Represents.new.run ops
  refine ⟨b, _, _, hrun, rfl, h, h.reads, fun n fuel hf => ?_⟩
  obtain ⟨b', -, hloop⟩ := h.loop (n := n) hf
  rw [hloop]
  cases ((ByteQueue.run {} ops).1.read n).2 <;> simp [ReadOutcome.ofAnswer]

example : (LinkedBuffer.newBuffer.run
    [.read 4, .write [1], .write [], .write [2, 3], .read 2, .eof, .read 9, .read 1]).map Prod.snd =
      some [.blocks, .returned [1, 2] false, .returned [3] false, .returned [] true] := by decide

/-! ## The buffer of the channel model -/

def Buffer.queue (b : Buffer) : ByteQueue := { content := b.content, closed := b.closed }

def BufferRead.answer (b : Buffer) : BufferRead → ByteQueue × Answer
  | .bytes bs b => (b.queue, .returned bs false)
  | .eof => (b.queue, .returned [] true)
  | .wait => (b.queue, .blocks)

theorem Buffer.Read_queue (b : Buffer) (n : Nat) : (b.Read n).answer b = b.queue.read n := by
  rcases Nat.eq_zero_or_pos n with rfl | hn
  · rfl
  · rw [ByteQueue.read, if_neg (by omega)]
    by_cases hc : b.queue.content = []
    · rw [Read_empty hn hc, if_neg (not_not.mpr hc)]
      by_cases hcl : b.closed = true
      · rw [if_pos hcl, if_pos (show b.queue.closed = true from hcl)]
        rfl
      · rw [if_neg hcl, if_neg (show ¬b.queue.closed = true from hcl)]
        rfl
    · obtain ⟨b', hr, hcontent, hcl⟩ := Read_pos hn hc
      rw [hr, if_pos hc, BufferRead.answer, queue, queue, hcontent, hcl]

/-- The list of the source answers as the buffer of the channel model does. -/
theorem Represents.buffer {l : LinkedBuffer} {b : Buffer} (h : Represents l b.queue) (n : Nat) :
    ∃ l', l.Read n = some (l', ((b.Read n).answer b).2) ∧
      Represents l' ((b.Read n).answer b).1 := by
  rw [Buffer.Read_queue]
  exact h.Read n

end Qtalk.Mux
