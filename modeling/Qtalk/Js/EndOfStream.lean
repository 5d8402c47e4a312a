import Qtalk.Js.Session

/-!
# The end of the stream

A channel of `javascript/mux/channel.ts` between a peer that sends data and then an Eof, and an
application that awaits each `read` before the next. `handle` notes the Eof and wakes nobody
(the lines that would are commented out), and `tryRead` looks at the note only when it has
just emptied the buffer: a read that is outstanding when the Eof is handled, or that finds
the buffer empty but defined, or asks for more than is left, is not released.
-/

namespace Qtalk.Js
open Qtalk.Lib

/-- A read made after the Eof was handled: its promise, the bytes that remained, its length. -/
structure LateRead where
  promise : Nat
  rest : List UInt8
  len : Nat
  deriving DecidableEq, Repr

/-- A channel and the reads on it. -/
structure Listening where
  ch : Chan
  /-- promises given out -/
  calls : Nat := 0
  settled : List (Nat × ReadResult) := []
  -- history
  /-- the data handled -/
  received : List UInt8 := []
  late : List LateRead := []

def ReadResult.bytes : ReadResult → List UInt8
  | .data bs => bs
  | _ => []

/-- The bytes a read asks for, of those there are; a length of zero asks for all. -/
def requested (len : Nat) (rest : List UInt8) : List UInt8 := if len = 0 then rest else rest.take len

/-- What a read made after the end comes to: the bytes while enough remain, undefined once none
do. -/
structure LateRead.Right (r : LateRead) (res : ReadResult) : Prop where
  ended : r.rest = [] → res = .undefined
  bytes : r.rest ≠ [] → r.len ≤ r.rest.length → res = .data (requested r.len r.rest)

namespace Listening

def start (ch : Chan) : Listening := { ch }

/-- The channel was just made, by `open` or by `handleOpen`. -/
def Made (ch : Chan) : Prop :=
  (∃ s : Session, ch = s.outbound) ∨
    ∃ (s : Session) (senderID windowSize maxPacketSize : Nat),
      ch = s.inbound senderID windowSize maxPacketSize

/-- The bytes the application has got. -/
def delivered (s : Listening) : List UInt8 := s.settled.flatMap fun x => x.2.bytes

/-- The bytes that remain for it. -/
def rest (s : Listening) : List UInt8 := s.received.drop s.delivered.length

def settle (s : Listening) (p : Nat) (res : ReadResult) : Listening :=
  if res = .pending then s else { s with settled := s.settled ++ [(p, res)] }

/-- `tryRead` of the read with promise `p`. -/
def attempt (s : Listening) (p len : Nat) : Listening :=
  let (res, ch) := s.ch.tryRead p len
  { s with ch }.settle p res

inductive Act where
  | read (len : Nat)
  | data (length : Nat) (data : List UInt8)
  | eof
  deriving DecidableEq, Repr

/-- At most one read is outstanding, and the Eof is the peer's last message. -/
def next (s : Listening) : Act → Option Listening
  | .read len =>
    if s.ch.readers = [] then
      let late := if s.ch.gotEOF then s.late ++ [⟨s.calls, s.rest, len⟩] else s.late
      some ({ s with calls := s.calls + 1, late }.attempt s.calls len)
    else none
  | .data length data =>
    if s.ch.gotEOF then none
    else
      match s.ch.handleData length data with
      | .error _ => none
      | .ok (none, ch) => some { s with ch, received := s.received ++ data }
      | .ok (some (p, res), ch) => some ({ s with ch, received := s.received ++ data }.settle p res)
  | .eof =>
    if s.ch.gotEOF then none
    else some { s with ch := (s.ch.handle 0 (.eof s.ch.localId)).ch }

/-- Once the Eof is handled every read settles, and as it should. -/
structure Released (s : Listening) : Prop where
  settles : s.ch.gotEOF = true → ∀ p < s.calls, ∃ res, (p, res) ∈ s.settled
  right : ∀ r ∈ s.late, ∃ res, (r.promise, res) ∈ s.settled ∧ r.Right res

/-- No read is outstanding when the Eof is handled, and every later one finds the buffer gone, or
bytes in it and enough of them. -/
def Passes (s : Listening) : Act → Prop
  | .read len => s.ch.gotEOF = true → ∀ rest ∈ s.ch.readBuf, rest ≠ [] ∧ len ≤ rest.length
  | .data _ _ => True
  | .eof => s.ch.readers = []

instance (s : Listening) (a : Act) : Decidable (s.Passes a) := by
  cases a <;> simp only [Passes] <;> infer_instance

/-! ## What `tryRead` comes to -/

/-- Enough is there. -/
theorem tryRead_enough {c : Chan} {buf : List UInt8} {len : Nat} (hb : c.readBuf = some buf)
    (hlen : len ≤ buf.length) (p : Nat) :
    ∃ ch, c.tryRead p len = (.data (requested len buf), ch) ∧
      requested len buf ++ ch.readBuf.getD [] = buf ∧ ch.readers = c.readers ∧
      ch.gotEOF = c.gotEOF ∧ (c.gotEOF = false → ch.readBuf.isSome) := by
  rw [Channel.tryRead, hb]
  dsimp only
  by_cases hall : len = 0 ∧ 0 < buf.length
  · rw [if_pos hall, requested, if_pos hall.1]
    exact ⟨_, rfl, List.append_nil _, rfl, rfl, fun _ => rfl⟩
  · have hreq : requested len buf = buf.take len := by
      rw [requested]
      split
      · next hz =>
        have hnil : buf = [] := List.eq_nil_of_length_eq_zero (by omega)
        rw [hnil, List.take_nil]
      · rfl
    rw [if_neg hall, if_pos hlen, hreq]
    by_cases hend : buf.drop len = [] ∧ c.gotEOF = true
    · rw [if_pos hend]
      refine ⟨_, rfl, ?_, rfl, rfl, fun hopen => ?_⟩
      · rw [Option.getD_none, List.append_nil]
        exact List.take_of_length_le (List.drop_eq_nil_iff.mp hend.1)
      · rw [hopen] at hend
        exact absurd hend.2 (by simp)
    · rw [if_neg hend]
      exact ⟨_, rfl, List.take_append_drop len buf, rfl, rfl, fun _ => rfl⟩

/-- Too little is there. -/
theorem tryRead_short {c : Chan} {buf : List UInt8} {len : Nat} (hb : c.readBuf = some buf)
    (hlen : buf.length < len) (p : Nat) :
    c.tryRead p len = (.pending, { c with readers := c.readers ++ [(p, len)] }) := by
  rw [Channel.tryRead, hb]
  dsimp only
  rw [if_neg (by omega), if_neg (by omega)]

theorem tryRead_gone {c : Chan} (hb : c.readBuf = none) (p len : Nat) :
    c.tryRead p len = (.undefined, c) := by
  rw [Channel.tryRead, hb]

/-! ## The invariant -/

structure Inv (s : Listening) : Prop where
  order : s.settled.map Prod.fst = List.range s.settled.length
  outstanding : s.ch.readers = [] ∧ s.calls = s.settled.length ∨
    ∃ len, s.ch.readers = [(s.settled.length, len)] ∧ s.calls = s.settled.length + 1
  exact : s.received = s.delivered ++ s.ch.readBuf.getD []
  buffered : s.ch.gotEOF = false → s.ch.readBuf.isSome
  late : s.ch.gotEOF = false → s.late = []

/-- A read that is not outstanding is about to be tried. -/
structure Trying (s : Listening) : Prop where
  order : s.settled.map Prod.fst = List.range s.settled.length
  readers : s.ch.readers = []
  calls : s.calls = s.settled.length + 1
  exact : s.received = s.delivered ++ s.ch.readBuf.getD []
  buffered : s.ch.gotEOF = false → s.ch.readBuf.isSome
  late : s.ch.gotEOF = false → s.late = []

theorem order_snoc {l : List (Nat × ReadResult)} (h : l.map Prod.fst = List.range l.length)
    (res : ReadResult) :
    (l ++ [(l.length, res)]).map Prod.fst = List.range (l ++ [(l.length, res)]).length := by
  rw [List.map_append, h, List.length_append, List.length_singleton, List.range_succ]
  rfl

/-- The read settles, or it is the one outstanding. -/
theorem Trying.cases {s : Listening} (h : s.Trying) (len : Nat) :
    (s.ch.readBuf = none ∧ s.attempt s.settled.length len =
      { s with settled := s.settled ++ [(s.settled.length, .undefined)] }) ∨
    (∃ buf ch, s.ch.readBuf = some buf ∧ len ≤ buf.length ∧ s.attempt s.settled.length len =
        { s with ch, settled := s.settled ++ [(s.settled.length, .data (requested len buf))] } ∧
      requested len buf ++ ch.readBuf.getD [] = buf ∧ ch.readers = [] ∧
      ch.gotEOF = s.ch.gotEOF ∧ (s.ch.gotEOF = false → ch.readBuf.isSome)) ∨
    (∃ buf, s.ch.readBuf = some buf ∧ buf.length < len ∧ s.attempt s.settled.length len =
      { s with ch := { s.ch with readers := [(s.settled.length, len)] } }) := by
  cases hb : s.ch.readBuf with
  | none =>
    refine .inl ⟨rfl, ?_⟩
    rw [attempt, tryRead_gone hb]
    rfl
  | some buf =>
    rcases Nat.lt_or_ge buf.length len with hlt | hle
    · refine .inr (.inr ⟨buf, rfl, hlt, ?_⟩)
      rw [attempt, tryRead_short hb hlt, h.readers]
      rfl
    · obtain ⟨ch, htry, hsplit, hreaders, heof, hsome⟩ := tryRead_enough hb hle s.settled.length
      refine .inr (.inl ⟨buf, ch, rfl, hle, ?_, hsplit, hreaders.trans h.readers, heof, hsome⟩)
      rw [attempt, htry]
      rfl

theorem Trying.inv {s : Listening} (h : s.Trying) (len : Nat) :
    (s.attempt s.settled.length len).Inv := by
  rcases h.cases len with ⟨hb, heq⟩ | ⟨buf, ch, hb, -, heq, hsplit, hreaders, heof, hsome⟩ |
      ⟨buf, hb, -, heq⟩
  · rw [heq]
    refine ⟨order_snoc h.order _, .inl ⟨h.readers, ?_⟩, ?_, h.buffered, h.late⟩
    · rw [List.length_append]
      exact h.calls
    · rw [h.exact, delivered, delivered, List.flatMap_append]
      simp [ReadResult.bytes]
  · rw [heq]
    refine ⟨order_snoc h.order _, .inl ⟨hreaders, ?_⟩, ?_, ?_, ?_⟩
    · rw [List.length_append]
      exact h.calls
    · have hrec : s.received = s.delivered ++ (requested len buf ++ ch.readBuf.getD []) := by
        rw [hsplit, h.exact, hb]
        rfl
      rw [hrec, delivered, delivered, List.flatMap_append]
      simp [ReadResult.bytes]
    · exact fun hopen => hsome (heof ▸ hopen)
    · exact fun hopen => h.late (heof ▸ hopen)
  · rw [heq]
    exact ⟨h.order, .inr ⟨len, rfl, h.calls⟩, h.exact, h.buffered, h.late⟩

theorem Inv.reading {s : Listening} (h : s.Inv) (hr : s.ch.readers = []) (len : Nat) :
    s.calls = s.settled.length ∧ Trying { s with
      calls := s.calls + 1
      late := if s.ch.gotEOF then s.late ++ [⟨s.calls, s.rest, len⟩] else s.late } := by
  have hcalls : s.calls = s.settled.length := by
    rcases h.outstanding with ⟨-, hcalls⟩ | ⟨len, hreaders, -⟩
    · exact hcalls
    · rw [hr] at hreaders
      cases hreaders
  refine ⟨hcalls, h.order, hr, congrArg Nat.succ hcalls, h.exact, h.buffered, fun hopen => ?_⟩
  dsimp only at hopen ⊢
  rw [hopen]
  exact h.late hopen

theorem Inv.step {s s' : Listening} {a : Act} (h : s.Inv) (hn : s.next a = some s') : s'.Inv := by
  cases a with
  | read len =>
    rw [next] at hn
    split at hn
    · next hr =>
      cases hn
      obtain ⟨hcalls, htry⟩ := h.reading hr len
      rw [hcalls] at htry ⊢
      exact htry.inv len
    · cases hn
  | data length data =>
    rw [next] at hn
    split at hn
    · cases hn
    · next hopen =>
      have hopen : s.ch.gotEOF = false := by simpa using hopen
      obtain ⟨buf, hb⟩ := Option.isSome_iff_exists.mp (h.buffered hopen)
      have hmore : s.received ++ data = s.delivered ++ (s.ch.readBuf.map (· ++ data)).getD [] := by
        rw [h.exact, hb, List.append_assoc]
        rfl
      have hsome : (s.ch.readBuf.map (· ++ data)).isSome := by
        rw [Option.isSome_map]
        exact h.buffered hopen
      split at hn
      · cases hn
      · next ch hd =>
        cases hn
        rcases h.outstanding with ⟨hr, hcalls⟩ | ⟨len, hr, hcalls⟩
        · cases Channel.handleData_idle hr hd
          exact ⟨h.order, .inl ⟨hr, hcalls⟩, hmore, fun _ => hsome, h.late⟩
        · cases Channel.handleData_parked hr hd
      · next p res ch hd =>
        cases hn
        rcases h.outstanding with ⟨hr, hcalls⟩ | ⟨len, hr, hcalls⟩
        · cases Channel.handleData_idle hr hd
        · cases Channel.handleData_parked hr hd
          have htry : Trying { s with
              ch := { s.ch.take length data with readers := [] }, received := s.received ++ data } :=
            ⟨h.order, rfl, hcalls, hmore, fun _ => hsome, h.late⟩
          exact htry.inv len
  | eof =>
    rw [next] at hn
    split at hn
    · cases hn
    · next hopen =>
      cases hn
      refine ⟨h.order, h.outstanding, h.exact, fun hc => ?_, fun hc => ?_⟩
      · cases hc
      · cases hc

theorem Inv.start {ch : Chan} (hch : Made ch) : (start ch).Inv := by
  have hfresh : ch.readers = [] ∧ ch.readBuf = some [] := by
    rcases hch with ⟨s, rfl⟩ | ⟨s, senderID, windowSize, maxPacketSize, rfl⟩
    · exact ⟨rfl, rfl⟩
    · exact ⟨rfl, rfl⟩
  obtain ⟨hr, hb⟩ := hfresh
  refine ⟨rfl, .inl ⟨hr, rfl⟩, ?_, fun _ => ?_, fun _ => rfl⟩
  · show [] = [] ++ ch.readBuf.getD []
    rw [hb]
    rfl
  · show ch.readBuf.isSome
    rw [hb]
    rfl

/-! ## Who is released -/

theorem Inv.rest {s : Listening} (h : s.Inv) : s.rest = s.ch.readBuf.getD [] := by
  rw [Listening.rest, h.exact, List.drop_left]

theorem mem_settled {l : List (Nat × ReadResult)} (h : l.map Prod.fst = List.range l.length) {p : Nat} :
    (∃ res, (p, res) ∈ l) ↔ p < l.length := by
  rw [← List.mem_range, ← h, List.mem_map]
  constructor
  · rintro ⟨res, hres⟩
    exact ⟨_, hres, rfl⟩
  · rintro ⟨⟨q, res⟩, hres, rfl⟩
    exact ⟨res, hres⟩

theorem Inv.settles {s : Listening} (h : s.Inv) :
    (∀ p < s.calls, ∃ res, (p, res) ∈ s.settled) ↔ s.ch.readers = [] := by
  rcases h.outstanding with ⟨hr, hcalls⟩ | ⟨len, hr, hcalls⟩
  · exact iff_of_true (fun p hp => (mem_settled h.order).mpr (hcalls ▸ hp)) hr
  · refine iff_of_false (fun hall => ?_) (by rw [hr]; exact List.cons_ne_nil _ _)
    have := (mem_settled h.order).mp (hall s.settled.length (by omega))
    omega

/-- While the Eof has not come nothing is promised. -/
theorem Inv.released {s : Listening} (h : s.Inv) (hopen : s.ch.gotEOF = false) : s.Released := by
  refine ⟨fun heof => ?_, fun r hr => ?_⟩
  · rw [hopen] at heof
    cases heof
  · rw [h.late hopen] at hr
    cases hr

/-- One more read settles after the end. -/
theorem Released.snoc {s s' : Listening} (h : s.Released) (heof : s.ch.gotEOF = true)
    (hcalls : s.calls = s.settled.length) (order : s.settled.map Prod.fst = List.range s.settled.length)
    {len : Nat} {res : ReadResult} (hs : s'.settled = s.settled ++ [(s.settled.length, res)])
    (hl : s'.late = s.late ++ [⟨s.settled.length, s.rest, len⟩]) (hc : s'.calls = s.settled.length + 1) :
    s'.Released ↔ LateRead.Right ⟨s.settled.length, s.rest, len⟩ res := by
  constructor
  · intro h'
    obtain ⟨res', hmem, hright⟩ := h'.right ⟨s.settled.length, s.rest, len⟩
      (by rw [hl]; exact List.mem_append_right _ List.mem_cons_self)
    rw [hs, List.mem_append] at hmem
    rcases hmem with hmem | hmem
    · exact absurd ((mem_settled order).mp ⟨res', hmem⟩) (Nat.lt_irrefl _)
    · cases List.mem_singleton.mp hmem
      exact hright
  · intro hright
    refine ⟨fun _ p hp => ?_, fun r hr => ?_⟩
    · rw [hs]
      rcases Nat.lt_or_ge p s.calls with hlt | hge
      · obtain ⟨res', hmem⟩ := h.settles heof p hlt
        exact ⟨res', List.mem_append_left _ hmem⟩
      · have hp' : p = s.settled.length := by omega
        rw [hp']
        exact ⟨res, List.mem_append_right _ List.mem_cons_self⟩
    · rw [hl, List.mem_append] at hr
      rw [hs]
      rcases hr with hr | hr
      · obtain ⟨res', hmem, hright'⟩ := h.right r hr
        exact ⟨res', List.mem_append_left _ hmem, hright'⟩
      · rw [List.mem_singleton.mp hr]
        exact ⟨res, List.mem_append_right _ List.mem_cons_self, hright⟩

/-- A read made after the end. -/
theorem Inv.released_read {s : Listening} {len : Nat} (h : s.Inv) (hrel : s.Released)
    (hr : s.ch.readers = []) (heof : s.ch.gotEOF = true) :
    (attempt { s with calls := s.calls + 1, late := s.late ++ [⟨s.calls, s.rest, len⟩] } s.calls
      len).Released ↔ ∀ rest ∈ s.ch.readBuf, rest ≠ [] ∧ len ≤ rest.length := by
  obtain ⟨hcalls, htry⟩ := h.reading hr len
  have hrest := h.rest
  rw [heof, if_pos rfl, hcalls] at htry
  rw [hcalls]
  rcases htry.cases len with ⟨hb, heq⟩ | ⟨buf, ch, hb, hle, heq, -⟩ | ⟨buf, hb, hlt, heq⟩
  · rw [heq, hrel.snoc heof hcalls h.order rfl rfl rfl]
    rw [show s.ch.readBuf = none from hb] at hrest ⊢
    refine iff_of_true ⟨fun _ => rfl, fun hne => absurd hrest hne⟩ fun rest hmem => ?_
    cases hmem
  · rw [heq, hrel.snoc heof hcalls h.order rfl rfl rfl]
    rw [show s.ch.readBuf = some buf from hb] at hrest ⊢
    constructor
    · intro hright rest hmem
      cases hmem
      refine ⟨fun hnil => ?_, hle⟩
      cases hright.ended (hrest.trans hnil)
    · intro hall
      have hne := (hall buf rfl).1
      refine ⟨fun hnil => absurd (hrest.symm.trans hnil) hne, fun _ _ => ?_⟩
      dsimp only
      rw [hrest]
      rfl
  · refine iff_of_false (fun hrel' => ?_) fun hall => ?_
    · rw [heq] at hrel'
      obtain ⟨res, hmem⟩ := hrel'.settles heof s.settled.length (Nat.lt_succ_self _)
      exact absurd ((mem_settled h.order).mp ⟨res, hmem⟩) (Nat.lt_irrefl _)
    · have := (hall buf hb).2
      omega

theorem tryRead_gotEOF (c : Chan) (p len : Nat) : (c.tryRead p len).2.gotEOF = c.gotEOF := by
  rw [Channel.tryRead]
  split
  · rfl
  · split
    · rfl
    · split <;> rfl

theorem settle_ch (s : Listening) (p : Nat) (res : ReadResult) : (s.settle p res).ch = s.ch := by
  rw [settle]
  split <;> rfl

/-- The data comes before the Eof. -/
theorem data_open {s s' : Listening} {length : Nat} {data : List UInt8}
    (hn : s.next (.data length data) = some s') : s'.ch.gotEOF = false := by
  rw [next] at hn
  split at hn
  · cases hn
  · next hopen =>
    have hopen : s.ch.gotEOF = false := by simpa using hopen
    have hkeep : ∀ woken ch, s.ch.handleData length data = .ok (woken, ch) → ch.gotEOF = false := by
      intro woken ch hd
      obtain ⟨-, -, ⟨-, -, rfl⟩ | ⟨p, len, readers, -, -, rfl⟩⟩ := Channel.handleData_ok hd
      · exact hopen
      · rw [tryRead_gotEOF]
        exact hopen
    split at hn
    · cases hn
    · next ch hd =>
      cases hn
      exact hkeep none ch hd
    · next p res ch hd =>
      cases hn
      rw [settle_ch]
      exact hkeep (some (p, res)) ch hd

/-- A step keeps the promise exactly if it passes. -/
theorem Inv.released_step {s s' : Listening} {a : Act} (h : s.Inv) (hrel : s.Released)
    (hn : s.next a = some s') : s'.Released ↔ s.Passes a := by
  cases a with
  | read len =>
    have h' := h.step hn
    rw [next] at hn
    split at hn
    · next hr =>
      cases hn
      rw [Passes]
      by_cases heof : s.ch.gotEOF = true
      · rw [if_pos heof] at h' ⊢
        rw [h.released_read hrel hr heof]
        exact ⟨fun hall _ => hall, fun hall => hall heof⟩
      · have hopen : s.ch.gotEOF = false := by simpa using heof
        refine iff_of_true (h'.released ?_) fun hc => absurd hc heof
        rw [attempt, settle_ch]
        exact (tryRead_gotEOF s.ch s.calls len).trans hopen
    · cases hn
  | data length data => exact iff_of_true ((h.step hn).released (data_open hn)) trivial
  | eof =>
    have h' := h.step hn
    rw [next] at hn
    split at hn
    · cases hn
    · next hopen =>
      cases hn
      have hlate := h.late (by simpa using hopen)
      rw [Passes, ← show _ ↔ s.ch.readers = [] from h'.settles]
      refine ⟨fun hrel' => hrel'.settles rfl, fun hall => ⟨fun _ => hall, fun r hr => ?_⟩⟩
      rw [show s.late = [] from hlate] at hr
      cases hr

theorem Inv.of_run {ch : Chan} (hch : Made ch) {ok : Listening → Act → Prop} {s : Listening}
    (run : Run next ok (Listening.start ch) s) : s.Inv :=
  run.invariant (Inv.start hch) fun _ _ _ _ h _ hn => h.step hn

/-- In a run in which every step passes the end of the stream reaches every reader, and the next
step leaves one behind if and only if it does not pass. -/
theorem eof_reaches_reader {ch : Chan} (hch : Made ch) {s : Listening}
    (run : Run next Passes (start ch) s) :
    s.Released ∧ ∀ a s', s.next a = some s' → (s'.Released ↔ s.Passes a) := by
  have hrel : s.Released := by
    refine run.invariant ((Inv.start hch).released ?_) fun s a s' hr h hok hn =>
      ((Inv.of_run hch hr).released_step h hn).mpr hok
    rcases hch with ⟨s, rfl⟩ | ⟨s, senderID, windowSize, maxPacketSize, rfl⟩ <;> rfl
  exact ⟨hrel, fun a s' hn => (Inv.of_run hch run).released_step hrel hn⟩

/-- The data is read to its end behind the Eof, and the next read is told; a read of more than is
left would not be. -/
theorem eof_reaches_reader_run : ∃ s s', Run next Passes (start Session.new.outbound) s ∧
    s.ch.gotEOF = true ∧ s.rest = [3] ∧ s.Released ∧ s.next (.read 2) = some s' ∧ ¬s'.Released := by
  obtain ⟨s, run, hs⟩ := Run.of_exec next Passes (start Session.new.outbound)
    [.read 2, .data 3 [1, 2, 3], .eof]
    (fun s => decide (s.ch.gotEOF = true ∧ s.rest = [3] ∧ (s.next (.read 2)).isSome = true ∧
      ¬s.Passes (.read 2))) (by decide +kernel)
  simp only [decide_eq_true_eq] at hs
  obtain ⟨heof, hrest, hnext, hpass⟩ := hs
  obtain ⟨s', hn⟩ := Option.isSome_iff_exists.mp hnext
  obtain ⟨hrel, hexact⟩ := eof_reaches_reader (.inl ⟨.new, rfl⟩) run
  exact ⟨s, s', run, heof, hrest, hrel, hn, (hexact _ s' hn).not.mpr hpass⟩

/-- A read is outstanding when the Eof comes, and stays so. -/
theorem eof_leaves_reader : ∃ s, Run next anyStep (start Session.new.outbound) s ∧
    s.ch.gotEOF = true ∧ s.calls = 1 ∧ s.settled = [] ∧ ¬s.Released := by
  obtain ⟨s, run, hs⟩ := Run.of_exec next anyStep (start Session.new.outbound) [.read 4, .eof]
    (fun s => decide (s.ch.gotEOF = true ∧ s.calls = 1 ∧ s.settled = [])) (by decide +kernel)
  simp only [decide_eq_true_eq] at hs
  obtain ⟨heof, hcalls, hsettled⟩ := hs
  refine ⟨s, run, heof, hcalls, hsettled, fun hrel => ?_⟩
  obtain ⟨res, hmem⟩ := hrel.settles heof 0 (by omega)
  rw [hsettled] at hmem
  cases hmem

end Listening

end Qtalk.Js
