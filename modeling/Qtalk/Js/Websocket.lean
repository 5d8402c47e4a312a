import Qtalk.Js.Agreement
import Qtalk.Js.Channel
import Qtalk.Lib.Framing

/-!
# The websocket connection

`Conn` of `javascript/mux/transport/websocket.ts` under the decode loop, the only reader.
A `Feed` is the connection with the websocket messages still to come and a schedule that
says how many of them come in before each `read`; a read that parks waits for as many more
as it needs. A read of no bytes takes whatever has come in, so a data message without
payload decodes only while nothing behind it has arrived (`decodes_iff_undisturbed`).
-/

namespace Qtalk.Js
open Qtalk.Lib

/-- `Conn`; a waiter is a parked `tryRead`, known by its length. -/
structure Conn where
  buf : List UInt8
  waiters : List Nat
  isClosed : Bool
  deriving DecidableEq, Repr

/-- The constructor. -/
def newConn : Conn := { buf := [], waiters := [], isClosed := false }

/-- `tryRead`, the body of `read(len)`. -/
def Conn.tryRead (c : Conn) (len : Nat) : ReadResult × Conn :=
  if c.isClosed then (.undefined, c)
  else
    match serve len c.buf with
    | some (data, buf) => (.data data, { c with buf })
    | none => (.pending, { c with waiters := c.waiters ++ [len] })

/-- `onmessage`; the result is that of the waiter it wakes. -/
def Conn.onmessage (c : Conn) (data : List UInt8) : ReadResult × Conn :=
  -- `concat` with the right total (`concat_eq`)
  let c := { c with buf := c.buf ++ data }
  match c.waiters with
  | [] => (.pending, c)
  | len :: waiters => Conn.tryRead { c with waiters } len

/-- A connection and what the socket will deliver: `coming` are the websocket messages, and
`due k` of them come in ahead of the `k`-th `read`. -/
structure Feed where
  conn : Conn
  coming : List (List UInt8)
  due : Nat → Nat

/-- The messages due now come in. -/
def Feed.deliver (f : Feed) : Feed where
  conn := (f.coming.take (f.due 0)).foldl (fun c data => (c.onmessage data).2) f.conn
  coming := f.coming.drop (f.due 0)
  due k := f.due (k + 1)

/-- A parked read, retried at each message. -/
def awaitMessage (c : Conn) : List (List UInt8) → ReadResult × Conn × List (List UInt8)
  | [] => (.pending, c, [])
  | data :: coming =>
    match c.onmessage data with
    | (.pending, c) => awaitMessage c coming
    | (res, c) => (res, c, coming)

/-- `await conn.read(len)`. -/
def Feed.read : Reader Feed := fun len f =>
  let f := f.deliver
  match f.conn.tryRead len with
  | (.data bs, conn) => (.ok bs, { f with conn })
  | (.undefined, conn) => (.error .eof, { f with conn })
  | (.pending, conn) =>
    match awaitMessage conn f.coming with
    | (.data bs, conn, coming) => (.ok bs, { f with conn, coming })
    | (.undefined, conn, coming) => (.error .eof, { f with conn, coming })
    | (.pending, conn, coming) => (.error .blocked, { f with conn, coming })

/-- The bytes not yet taken by a reader. -/
def Feed.bytes (f : Feed) : List UInt8 := f.conn.buf ++ f.coming.flatten

/-! ## Arrivals -/

/-- The socket as an ideal transport sees it: the bytes that have come in and were not
taken, the messages to come and the schedule. -/
structure Line where
  here : List UInt8
  coming : List (List UInt8)
  due : Nat → Nat

def Line.bytes (l : Line) : List UInt8 := l.here ++ l.coming.flatten

/-- The messages due now come in. -/
def Line.arrive (l : Line) : Line where
  here := l.here ++ (l.coming.take (l.due 0)).flatten
  coming := l.coming.drop (l.due 0)
  due k := l.due (k + 1)

/-- Messages come in until there are `n` bytes. -/
def waitFor (n : Nat) (here : List UInt8) : List (List UInt8) → List UInt8 × List (List UInt8)
  | [] => (here, [])
  | data :: coming =>
    if n ≤ here.length then (here, data :: coming) else waitFor n (here ++ data) coming

/-- A transport that takes exactly `n` bytes. -/
def Line.take (l : Line) (n : Nat) : Line :=
  let l := l.arrive
  let (here, coming) := waitFor n l.here l.coming
  { l with here := here.drop n, coming }

/-- Among exact reads of these lengths, none of length zero finds a byte. -/
def Undisturbed : List Nat → Line → Prop
  | [], _ => True
  | n :: ns, l => (n = 0 → l.arrive.here = []) ∧ Undisturbed ns (l.take n)

instance decidableUndisturbed : (ns : List Nat) → (l : Line) → Decidable (Undisturbed ns l)
  | [], _ => .isTrue trivial
  | n :: ns, l =>
    have := decidableUndisturbed ns (l.take n)
    inferInstanceAs (Decidable ((n = 0 → l.arrive.here = []) ∧ Undisturbed ns (l.take n)))

/-- The reads with which the decoder takes in a message. -/
def reads : Message → List Nat
  | .openMsg .. => [1, 12]
  | .openConfirm .. => [1, 16]
  | .openFailure .. => [1, 4]
  | .windowAdjust .. => [1, 8]
  | .data _ length _ => [1, 8, length]
  | .eof .. => [1, 4]
  | .close .. => [1, 4]

@[simp] theorem bytes_arrive (l : Line) : l.arrive.bytes = l.bytes := by
  rw [Line.bytes, Line.bytes, Line.arrive, List.append_assoc, ← List.flatten_append,
    List.take_append_drop]

theorem waitFor_bytes (n : Nat) (here : List UInt8) (coming : List (List UInt8)) :
    (waitFor n here coming).1 ++ (waitFor n here coming).2.flatten = here ++ coming.flatten := by
  induction coming generalizing here with
  | nil => rfl
  | cons data coming ih =>
    rw [waitFor]
    split
    · rfl
    · rw [ih, List.flatten_cons, List.append_assoc]

theorem waitFor_enough {n : Nat} {here : List UInt8} {coming : List (List UInt8)}
    (h : n ≤ (here ++ coming.flatten).length) : n ≤ (waitFor n here coming).1.length := by
  induction coming generalizing here with
  | nil =>
    rw [waitFor]
    simpa using h
  | cons data coming ih =>
    rw [waitFor]
    split
    · assumption
    · exact ih (by simpa using h)

theorem waitFor_here {n : Nat} {here : List UInt8} {coming : List (List UInt8)}
    (h : n ≤ here.length) : waitFor n here coming = (here, coming) := by
  cases coming with
  | nil => rfl
  | cons data coming => rw [waitFor, if_pos h]

theorem bytes_take {l : Line} {n : Nat} (h : n ≤ l.bytes.length) :
    (l.take n).bytes = l.bytes.drop n := by
  have hle := waitFor_enough (h := (bytes_arrive l).symm ▸ h)
  have heq := waitFor_bytes n l.arrive.here l.arrive.coming
  rw [Line.take, Line.bytes, ← List.drop_append_of_le_length hle, heq, ← Line.bytes, bytes_arrive]

/-! ## One read -/

/-- The connection is open and nothing reads. -/
structure Conn.Idle (c : Conn) : Prop where
  isOpen : c.isClosed = false
  quiet : c.waiters = []

theorem idle_newConn : newConn.Idle := ⟨rfl, rfl⟩

def Feed.line (f : Feed) : Line := { here := f.conn.buf, coming := f.coming, due := f.due }

theorem tryRead_served {c : Conn} (h : c.isClosed = false) {len : Nat} {data buf : List UInt8}
    (hs : serve len c.buf = some (data, buf)) :
    c.tryRead len = (.data data, { c with buf }) := by
  rw [Conn.tryRead, if_neg (by rw [h]; exact Bool.false_ne_true), hs]

theorem tryRead_parked {c : Conn} (h : c.isClosed = false) {len : Nat} (hs : c.buf.length < len) :
    c.tryRead len = (.pending, { c with waiters := c.waiters ++ [len] }) := by
  rw [Conn.tryRead, if_neg (by rw [h]; exact Bool.false_ne_true), serve_short hs]

theorem onmessage_idle {c : Conn} (h : c.waiters = []) (data : List UInt8) :
    c.onmessage data = (.pending, { c with buf := c.buf ++ data }) := by
  simp only [Conn.onmessage, h]

theorem onmessage_parked {c : Conn} {len : Nat} (h : c.waiters = [len]) (data : List UInt8) :
    c.onmessage data = Conn.tryRead { c with buf := c.buf ++ data, waiters := [] } len := by
  simp only [Conn.onmessage, h]

theorem foldl_onmessage {c : Conn} (h : c.waiters = []) (datas : List (List UInt8)) :
    datas.foldl (fun c data => (c.onmessage data).2) c = { c with buf := c.buf ++ datas.flatten } := by
  induction datas generalizing c with
  | nil => simp
  | cons data datas ih =>
    have hrest := ih (c := { c with buf := c.buf ++ data }) h
    rw [List.foldl_cons, onmessage_idle h, hrest, List.flatten_cons, List.append_assoc]

theorem deliver_eq {f : Feed} (h : f.conn.Idle) :
    f.deliver = { conn := { f.conn with buf := f.line.arrive.here }, coming := f.line.arrive.coming,
                  due := f.line.arrive.due } := by
  rw [Feed.deliver, foldl_onmessage h.quiet]
  rfl

/-- A parked read gets its bytes as soon as they are there. -/
theorem awaitMessage_enough {c : Conn} {len : Nat} (coming : List (List UInt8))
    (ho : c.isClosed = false) (hw : c.waiters = [len]) (hs : c.buf.length < len)
    (h : len ≤ (c.buf ++ coming.flatten).length) :
    awaitMessage c coming =
      (.data ((waitFor len c.buf coming).1.take len),
        { c with buf := (waitFor len c.buf coming).1.drop len, waiters := [] },
        (waitFor len c.buf coming).2) := by
  induction coming generalizing c with
  | nil =>
    rw [List.flatten_nil, List.append_nil] at h
    omega
  | cons data coming ih =>
    rw [awaitMessage, onmessage_parked hw, waitFor, if_neg (by omega)]
    by_cases hd : len ≤ (c.buf ++ data).length
    · have hserve := serve_enough (by omega : 0 < len) hd
      have hread := tryRead_served (c := { c with buf := c.buf ++ data, waiters := [] }) ho hserve
      rw [hread, waitFor_here hd]
    · have hshort : (c.buf ++ data).length < len := by omega
      have hread := tryRead_parked (c := { c with buf := c.buf ++ data, waiters := [] }) ho hshort
      rw [hread]
      exact ih ho rfl hshort (by simpa using h)

/-- Too few bytes: the read stays parked. -/
theorem awaitMessage_starved {c : Conn} {len : Nat} (coming : List (List UInt8))
    (ho : c.isClosed = false) (hw : c.waiters = [len])
    (h : (c.buf ++ coming.flatten).length < len) :
    ∃ c', awaitMessage c coming = (.pending, c', []) := by
  induction coming generalizing c with
  | nil => exact ⟨c, rfl⟩
  | cons data coming ih =>
    rw [List.flatten_cons, ← List.append_assoc] at h
    have hshort : (c.buf ++ data).length < len := by
      rw [List.length_append] at h
      omega
    have hread := tryRead_parked (c := { c with buf := c.buf ++ data, waiters := [] }) ho hshort
    rw [awaitMessage, onmessage_parked hw, hread]
    exact ih ho rfl h

/-- `f'` is `f` after exact reads that left the line as `l`. -/
structure Feed.At (f' : Feed) (l : Line) : Prop where
  line : f'.line = l
  idle : f'.conn.Idle

theorem Feed.At.bytes {f : Feed} {l : Line} (h : f.At l) : f.bytes = l.bytes := by
  rw [← h.line]
  rfl

section Read

variable {f : Feed} {l : Line}

/-- A read of some bytes that will come is exact. -/
theorem read_some (hf : f.At l) {n : Nat} (hn : 0 < n) (h : n ≤ l.bytes.length) :
    ∃ f', Feed.read n f = (.ok (l.bytes.take n), f') ∧ f'.At (l.take n) := by
  obtain ⟨rfl, hidle⟩ := hf
  rw [← bytes_arrive] at h ⊢
  have heq := waitFor_bytes n f.line.arrive.here f.line.arrive.coming
  have hle := waitFor_enough (n := n) h
  have htake : f.line.arrive.bytes.take n = (waitFor n f.line.arrive.here f.line.arrive.coming).1.take n := by
    rw [Line.bytes, ← heq, List.take_append_of_le_length hle]
  rw [htake]
  by_cases hhere : n ≤ f.line.arrive.here.length
  · refine ⟨{ f.deliver with conn := { f.deliver.conn with buf := f.line.arrive.here.drop n } }, ?_, ?_⟩
    · rw [Feed.read, deliver_eq hidle]
      have hread := tryRead_served (c := { f.conn with buf := f.line.arrive.here }) hidle.isOpen
        (serve_enough hn hhere)
      rw [hread, waitFor_here hhere]
    · rw [deliver_eq hidle]
      refine ⟨?_, hidle.isOpen, hidle.quiet⟩
      simp only [Line.take, waitFor_here hhere]
      rfl
  · have hshort : f.line.arrive.here.length < n := by omega
    have hparked := awaitMessage_enough (c := { f.conn with buf := f.line.arrive.here, waiters := [n] })
      f.line.arrive.coming hidle.isOpen rfl hshort h
    refine ⟨⟨{ f.conn with buf := (f.line.take n).here, waiters := [] }, (f.line.take n).coming,
      (f.line.take n).due⟩, ?_, rfl, hidle.isOpen, rfl⟩
    have hread := tryRead_parked (c := { f.conn with buf := f.line.arrive.here }) hidle.isOpen hshort
    rw [Feed.read, deliver_eq hidle, hread, hidle.quiet, List.nil_append]
    dsimp only
    rw [hparked]
    rfl

/-- A read of no bytes while no byte is there is exact. -/
theorem read_none (hf : f.At l) (h : l.arrive.here = []) :
    ∃ f', Feed.read 0 f = (.ok [], f') ∧ f'.At (l.take 0) := by
  obtain ⟨rfl, hidle⟩ := hf
  have hwait : waitFor 0 [] f.line.arrive.coming = ([], f.line.arrive.coming) :=
    waitFor_here (Nat.zero_le _)
  refine ⟨f.deliver, ?_, ?_⟩
  · have hread := tryRead_served (c := { f.conn with buf := [] }) hidle.isOpen serve_empty
    rw [Feed.read, deliver_eq hidle, h, hread]
  · rw [deliver_eq hidle]
    refine ⟨?_, hidle.isOpen, hidle.quiet⟩
    simp only [Line.take, h, hwait]
    rfl

/-- A read of no bytes takes all there are. -/
theorem read_all (hf : f.At l) (h : l.arrive.here ≠ []) :
    ∃ f', Feed.read 0 f = (.ok l.arrive.here, f') := by
  obtain ⟨rfl, hidle⟩ := hf
  have hread := tryRead_served (c := { f.conn with buf := f.line.arrive.here }) hidle.isOpen
    (serve_zero h)
  rw [Feed.read, deliver_eq hidle, hread]
  exact ⟨_, rfl⟩

/-- A read at the end of what the socket delivers does not settle. -/
theorem read_starved (hf : f.At l) {n : Nat} (h : l.bytes.length < n) :
    ∃ f', Feed.read n f = (.error .blocked, f') := by
  obtain ⟨rfl, hidle⟩ := hf
  rw [← bytes_arrive] at h
  have hshort : f.line.arrive.here.length < n := by
    rw [Line.bytes, List.length_append] at h
    omega
  obtain ⟨c', hparked⟩ :=
    awaitMessage_starved (c := { f.conn with buf := f.line.arrive.here, waiters := [n] })
      f.line.arrive.coming hidle.isOpen rfl h
  have hread := tryRead_parked (c := { f.conn with buf := f.line.arrive.here }) hidle.isOpen hshort
  rw [Feed.read, deliver_eq hidle, hread, hidle.quiet, List.nil_append]
  dsimp only
  rw [hparked]
  exact ⟨_, rfl⟩

end Read

/-! ## One message -/

def Line.takes (l : Line) (ns : List Nat) : Line := ns.foldl Line.take l

theorem undisturbed_append (ns ns' : List Nat) (l : Line) :
    Undisturbed (ns ++ ns') l ↔ Undisturbed ns l ∧ Undisturbed ns' (l.takes ns) := by
  induction ns generalizing l with
  | nil => simp [Undisturbed, Line.takes]
  | cons n ns ih =>
    rw [List.cons_append, Undisturbed, Undisturbed, ih, and_assoc]
    rfl

/-- The bytes `Marshal` makes of a message. -/
def encoding (m : Message) : List UInt8 := (Marshal m).getD []

theorem encoding_ofGo {g : Codec.Message} (hg : g.WellSized) : encoding (ofGo g) = Codec.marshal g := by
  rw [encoding, Marshal_ofGo hg]
  rfl

/-- The reads of a message: its number, its fields, its data. -/
theorem reads_ofGo {g : Codec.Message} (hg : g.WellSized) :
    reads (ofGo g) = if g.num = DataID then [1, 8, (Codec.body g).length]
      else [1, Codec.payloadSizes g.num] := by
  cases g with
  | data m =>
    have hl : m.length.toNat = m.data.length := hg
    rw [ofGo, reads, hl]
    rfl
  | _ => rfl

section Decode

variable {f : Feed} {l : Line} {g : Codec.Message} {rest : List UInt8}

/-- Number and fields come in whole. -/
theorem read_header (hf : f.At l) (hl : l.bytes = Codec.marshal g ++ rest) :
    ∃ f1 f2, Feed.read 1 f = (.ok [g.num], f1) ∧
      Feed.read (Codec.payloadSizes g.num) f1 = (.ok (Codec.fields g), f2) ∧
      f2.At ((l.take 1).take (Codec.payloadSizes g.num)) ∧
      ((l.take 1).take (Codec.payloadSizes g.num)).bytes = Codec.body g ++ rest := by
  rw [Codec.marshal_eq, List.cons_append, List.append_assoc] at hl
  have hfields := Codec.fields_length g
  have hp : 0 < Codec.payloadSizes g.num :=
    Nat.pos_of_ne_zero fun h => Codec.payloadSizes_eq_zero.mp h (Codec.isMsgNum_num g)
  obtain ⟨f1, h1, hf1⟩ := read_some hf Nat.one_pos (by rw [hl, List.length_cons]; omega)
  have hl1 := bytes_take (l := l) (n := 1) (by rw [hl, List.length_cons]; omega)
  rw [hl, List.take_succ_cons, List.take_zero] at h1
  rw [hl, List.drop_succ_cons, List.drop_zero] at hl1
  obtain ⟨f2, h2, hf2⟩ := read_some hf1 hp (by rw [hl1, List.length_append]; omega)
  have hl2 := bytes_take (l := l.take 1) (n := Codec.payloadSizes g.num)
    (by rw [hl1, List.length_append]; omega)
  rw [hl1, ← hfields, List.take_left, hfields] at h2
  rw [hl1] at hl2
  refine ⟨f1, f2, h1, h2, hf2, hl2.trans ?_⟩
  rw [← hfields, List.drop_left]

theorem decode_plainMessage (hg : g.WellSized) (hd : g.num ≠ DataID) (hf : f.At l)
    (hl : l.bytes = Codec.marshal g ++ rest) :
    ∃ f', decode Feed.read f = (.ok (ofGo g), f') ∧ f'.At (l.takes (reads (ofGo g))) ∧
      (l.takes (reads (ofGo g))).bytes = rest := by
  obtain ⟨f1, f2, h1, h2, hf2, hl2⟩ := read_header hf hl
  have hbody : Codec.body g = [] := Codec.body_eq_nil hd
  rw [hbody, List.nil_append] at hl2
  rw [reads_ofGo hg, if_neg hd]
  refine ⟨f2, ?_, hf2, hl2⟩
  have hm := Unmarshal_marshal g
  rw [Codec.marshal_eq, hbody, List.append_nil] at hm
  rw [decode_plain (awaitRead_ok h1) (Codec.isMsgNum_num g) hd (mustRead_ok h2), hm]

/-- The third read of a data message. -/
theorem decode_dataMessage (hg : g.WellSized) (hd : g.num = DataID) (hf : f.At l)
    (hl : l.bytes = Codec.marshal g ++ rest) :
    (Undisturbed (reads (ofGo g)) l →
      ∃ f', decode Feed.read f = (.ok (ofGo g), f') ∧ f'.At (l.takes (reads (ofGo g))) ∧
        (l.takes (reads (ofGo g))).bytes = rest) ∧
    (¬ Undisturbed (reads (ofGo g)) l → (decode Feed.read f).1 = .error .range) := by
  obtain ⟨f1, f2, h1, h2, hf2, hl2⟩ := read_header hf hl
  have hlen := Codec.body_length hg hd
  have hp : Codec.payloadSizes g.num = 8 := by rw [hd]; rfl
  have hfields : (Codec.fields g).length = 8 := (Codec.fields_length g).trans hp
  rw [hd] at h1
  rw [hp] at h2 hf2 hl2
  rw [reads_ofGo hg, if_pos hd]
  have hm := Unmarshal_marshal g
  rw [Codec.marshal_eq, hd] at hm
  have hexact : ∀ {f3}, Feed.read (Codec.body g).length f2 = (.ok (Codec.body g), f3) →
      decode Feed.read f = (.ok (ofGo g), f3) := by
    intro f3 h3
    rw [hlen] at h3
    rw [decode_exactData (awaitRead_ok h1) (mustRead_ok h2) hfields (mustRead_ok h3) hlen, hm]
  by_cases hzero : Codec.body g = []
  · by_cases hquiet : ((l.take 1).take 8).arrive.here = []
    · refine ⟨fun _ => ?_, fun h => absurd ?_ h⟩
      · obtain ⟨f3, h3, hf3⟩ := read_none hf2 hquiet
        have hl3 := bytes_take (l := (l.take 1).take 8) (Nat.zero_le _)
        refine ⟨f3, hexact (by rw [hzero]; exact h3), by rw [hzero]; exact hf3, ?_⟩
        rw [hzero]
        exact hl3.trans (by rw [hl2, hzero]; rfl)
      · exact ⟨fun h => absurd h Nat.one_ne_zero, fun h => absurd h (by decide),
          fun _ => hquiet, trivial⟩
    · refine ⟨fun h => absurd (h.2.2.1 (by rw [hzero]; rfl)) hquiet, fun _ => ?_⟩
      obtain ⟨f3, h3⟩ := read_all hf2 hquiet
      rw [hzero, List.length_nil] at hlen
      rw [hlen] at h3
      have hshort : concat [[DataID], Codec.fields g, ((l.take 1).take 8).arrive.here]
          ((beWord ((Codec.fields g).drop 4)).toNat + (Codec.fields g).length + 1) = none := by
        have := List.length_pos_iff.mpr hquiet
        apply concat_short
        simp only [List.flatten_cons, List.flatten_nil, List.length_append, List.length_cons,
          List.length_nil]
        omega
      rw [decode_data (awaitRead_ok h1) (mustRead_ok h2) hfields (mustRead_ok h3), hshort]
      rfl
  · have hpos : 0 < (Codec.body g).length := List.length_pos_iff.mpr hzero
    refine ⟨fun _ => ?_, fun h => absurd ?_ h⟩
    · have hle : (Codec.body g).length ≤ ((l.take 1).take 8).bytes.length := by
        rw [hl2, List.length_append]
        omega
      obtain ⟨f3, h3, hf3⟩ := read_some hf2 hpos hle
      have hl3 := bytes_take hle
      rw [hl2, List.take_left] at h3
      rw [hl2, List.drop_left] at hl3
      exact ⟨f3, hexact h3, hf3, hl3⟩
    · exact ⟨fun h => absurd h Nat.one_ne_zero, fun h => absurd h (by decide),
        fun h => absurd h (Nat.ne_of_gt hpos), trivial⟩

/-- A message is decoded, unless bytes behind its empty payload get in the way. -/
theorem decode_message (hg : g.WellSized) (hf : f.At l) (hl : l.bytes = Codec.marshal g ++ rest) :
    (Undisturbed (reads (ofGo g)) l →
      ∃ f', decode Feed.read f = (.ok (ofGo g), f') ∧ f'.At (l.takes (reads (ofGo g))) ∧
        (l.takes (reads (ofGo g))).bytes = rest) ∧
    (¬ Undisturbed (reads (ofGo g)) l → (decode Feed.read f).1 = .error .range) := by
  by_cases hd : g.num = DataID
  · exact decode_dataMessage hg hd hf hl
  · refine ⟨fun _ => decode_plainMessage hg hd hf hl, fun h => absurd ?_ h⟩
    rw [reads_ofGo hg, if_neg hd]
    exact ⟨fun h => absurd h Nat.one_ne_zero,
      fun h => absurd (Codec.isMsgNum_num g) (Codec.payloadSizes_eq_zero.mp h), trivial⟩

end Decode

/-! ## Any list of messages, cut in any way -/

/-- The decoder returns exactly these messages and leaves `tail`; when nothing is left, it
waits. -/
def Decodes (ms : List Message) (tail : List UInt8) (f : Feed) : Prop :=
  ∃ f', decodes (decode Feed.read) ms.length f = (ms.map .ok, f') ∧ f'.bytes = tail ∧
    (tail = [] → (decode Feed.read f').1 = .error .waiting)

theorem decode_starved {f : Feed} {l : Line} (hf : f.At l) (hl : l.bytes = []) :
    (decode Feed.read f).1 = .error .waiting := by
  obtain ⟨f', h⟩ := read_starved hf (n := 1) (by rw [hl]; exact Nat.one_pos)
  have hawait : awaitRead Feed.read 1 f = (.error .waiting, f') := by rw [awaitRead, h]
  rw [decode_noType hawait]

theorem decodes_iff {ms : List Message} (hms : ∀ m ∈ ms, m.Fits) {f : Feed} {l : Line}
    {tail : List UInt8} (hf : f.At l) (hl : l.bytes = ms.flatMap encoding ++ tail) :
    Decodes ms tail f ↔ Undisturbed (ms.flatMap reads) l := by
  induction ms generalizing f l with
  | nil =>
    refine ⟨fun _ => trivial, fun _ => ⟨f, rfl, hf.bytes.trans hl, fun ht => ?_⟩⟩
    rw [ht] at hl
    exact decode_starved hf hl
  | cons m ms ih =>
    have hm := hms m List.mem_cons_self
    have hg := wellSized_toGo hm
    have hback := ofGo_toGo hm
    rw [List.flatMap_cons, List.append_assoc, ← hback, encoding_ofGo hg] at hl
    obtain ⟨hok, hrange⟩ := decode_message hg hf hl
    rw [hback] at hok hrange
    rw [List.flatMap_cons, undisturbed_append]
    by_cases hu : Undisturbed (reads m) l
    · obtain ⟨f1, hd, hf1, hl1⟩ := hok hu
      rw [and_iff_right hu, ← ih (fun m' hm' => hms m' (List.mem_cons_of_mem m hm')) hf1 hl1]
      simp only [Decodes, List.length_cons, decodes_succ, hd, List.map_cons, Prod.mk.injEq,
        List.cons.injEq, true_and]
      constructor
      · rintro ⟨f', ⟨h1, h2⟩, h3⟩
        exact ⟨f', Prod.ext h1 h2, h3⟩
      · rintro ⟨f', h, h3⟩
        exact ⟨f', ⟨congrArg Prod.fst h, congrArg Prod.snd h⟩, h3⟩
    · refine ⟨fun h => ?_, fun h => absurd h.1 hu⟩
      obtain ⟨f', hd, -⟩ := h
      rw [List.length_cons, decodes_succ, hrange hu] at hd
      have hfirst := congrArg (fun res => res.1.head?) hd
      simp at hfirst

/-- A fresh connection and what its socket will deliver. -/
def newFeed (chunks : List (List UInt8)) (due : Nat → Nat) : Feed :=
  { conn := newConn, coming := chunks, due }

/-- **Decoding a chunked stream.** However the encodings of the messages are cut and
whenever the pieces come in, the decoder returns these messages and leaves what follows
them, exactly if nothing behind a data message without payload has come in by the time its
payload is read. -/
theorem decodes_iff_undisturbed (ms : List Message) (hms : ∀ m ∈ ms, m.Fits) (tail : List UInt8)
    (chunks : List (List UInt8)) (due : Nat → Nat)
    (hc : chunks.flatten = ms.flatMap encoding ++ tail) :
    Decodes ms tail (newFeed chunks due) ↔
      Undisturbed (ms.flatMap reads) { here := [], coming := chunks, due } :=
  decodes_iff hms ⟨rfl, idle_newConn⟩ hc

/-- In two pieces, the second one behind the payload read. -/
theorem decodes_iff_undisturbed_run :
    Decodes [.data 7 0 [], .eof 7] []
      (newFeed [[104, 0, 0, 0, 7, 0, 0, 0, 0], [105, 0, 0, 0, 7]] fun _ => 0) :=
  (decodes_iff_undisturbed [.data 7 0 [], .eof 7] (by decide) [] _ _ rfl).mpr (by decide)

/-- In one piece, the first message is lost. -/
theorem empty_payload_lost :
    ¬ ∀ ms : List Message, (∀ m ∈ ms, m.Fits) → ∀ (chunks : List (List UInt8)) (due : Nat → Nat),
      chunks.flatten = ms.flatMap encoding → Decodes ms [] (newFeed chunks due) := by
  intro h
  obtain ⟨f', hd, -⟩ := h [.data 7 0 [], .eof 7] (by decide)
    [[104, 0, 0, 0, 7, 0, 0, 0, 0, 105, 0, 0, 0, 7]] (fun _ => 0) rfl
  have hresults : (decodes (decode Feed.read) 2
      (newFeed [[104, 0, 0, 0, 7, 0, 0, 0, 0, 105, 0, 0, 0, 7]] fun _ => 0)).1
        = [.ok (.data 7 0 []), .ok (.eof 7)] := congrArg Prod.fst hd
  exact absurd hresults (by decide)

end Qtalk.Js
