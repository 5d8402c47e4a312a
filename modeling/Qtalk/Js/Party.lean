import Qtalk.Js.Calling
import Qtalk.Js.Hijack
import Qtalk.Lib.Calls

/-!
# One end of a call

An end of a channel: the channel with its `FrameCodec`, and the function that works on it, which
is `caller.call` or `Respond` of `javascript/rpc`. A step is what runs between two awaits, or a
message that comes in. Behind the model stand what the methods of the channel come to here, and
how far a step takes the read loop.
-/

namespace Qtalk.Js.Rpc
open Qtalk.Lib

/-- Where a function stands: it can go on, or it awaits the value of a call of `decode`, or the end
of its `close`. -/
inductive Stand where
  | ready
  | decoding (k : Nat)
  | closing
  deriving DecidableEq, Repr

/-- One end of the channel: the channel with its `FrameCodec`, the function that works on it, and
what `close` has left to do. Promise 1 is that of its own `close`, promise 2 that of the `close` a
CloseMessage calls; `out` is on its way to the other end. -/
structure Party (N ρ : Type) where
  world : World (Json N) Waiter
  prog : Async N ρ
  stand : Stand := .ready
  tasks : List Task := []
  settled : List Nat := []
  /-- the session's table has the channel no more -/
  removed : Bool := false
  out : List Message := []

variable {N ρ : Type}

/-- The result of a `read`. -/
def resultOf : Value → ReadResult
  | .bytes bs => .data bs
  | _ => .undefined

namespace Party

/-- One effect of a method of the channel; promise 0 is the one that the read loop awaits. -/
def perform (x : Party N ρ) : Effect → Party N ρ
  | .encode m => { x with out := x.out ++ [m] }
  | .rmCh _ => { x with removed := true }
  | .settle p v =>
    if p = 0 then { x with world := x.world.finish (x.world.fc.readLoop.wake (resultOf v)) }
    else { x with settled := x.settled ++ [p] }
  | .later t => { x with tasks := x.tasks ++ [t] }

/-- A method of the channel has run up to an await or its end. -/
def enter (x : Party N ρ) (o : Outcome) : Party N ρ :=
  o.effects.foldl perform { x with world := { x.world with channel := o.ch } }

/-- The function goes on to its next await. -/
def goOn (x : Party N ρ) : Option (Party N ρ) :=
  match x.stand, x.prog with
  | .ready, .op (.write buffer) k =>
    let o := x.world.channel.write buffer
    some { x.enter o with prog := k o.error }
  | .ready, .op .decode _ =>
    let k := x.world.calls
    some { x with world := { x.world.decode k with calls := k + 1 }, stand := .decoding k }
  | .ready, .op .close _ => some { x.enter (x.world.channel.close 1) with stand := .closing }
  | .decoding c, .op .decode k =>
    (x.world.resolved.find? fun a => a.1 = c).map fun a => { x with prog := k a.2, stand := .ready }
  | .closing, .op .close k => if 1 ∈ x.settled then some { x with prog := k (), stand := .ready } else none
  | _, _ => none

/-- What goes on behind an await of `close`. -/
def resume (x : Party N ρ) (i : Nat) : Option (Party N ρ) :=
  (x.tasks[i]?).map fun t =>
    { x with tasks := x.tasks.eraseIdx i }.enter (x.world.channel.resume t)

/-- A message comes in; `none` where the session's loop throws. -/
def handle (x : Party N ρ) (m : Message) : Option (Party N ρ) :=
  if x.removed then none
  else
    match m with
    | .data _ _ data => (x.world.arrive data).map fun world => { x with world }
    | m =>
      let o := x.world.channel.handle 2 m
      if o.error.isSome then none else some (x.enter o)

end Party

/-! ## How far things are -/

/-- What a task or a waiter has left to do. -/
def Task.rank : Task → Nat
  | .closeSent _ => 4
  | _ => 1

def Stand.rank : Stand → Nat
  | .ready => 1
  | _ => 0

/-- How far the read loop is in its turn. -/
def ReadLoop.rank : ReadLoop → Nat
  | .yielded => 3
  | .readingLen _ => 2
  | .readingBody _ => 1
  | _ => 0

/-- The CloseMessage that is yet to be sent, and the task behind it. -/
def unsent (sentClose : Bool) : Nat := if sentClose then 0 else 6

/-- The waiters of a `ready` queue that is not closed. -/
def parked (down : Bool) (waiters : Nat) : Nat := if down then 0 else 2 * waiters

/-- The loop holds the body of a frame. -/
def ReadLoop.holding : ReadLoop → Nat
  | .readingBody (.data _) => 1
  | _ => 0

theorem ReadLoop.wake_rank (res : ReadResult) (l : ReadLoop) : (l.wake res).rank = l.rank := by
  cases l <;> rfl

theorem ReadLoop.holding_le (l : ReadLoop) : l.holding ≤ 1 := by
  unfold ReadLoop.holding
  split <;> decide

/-- A loop that is woken without bytes holds none. -/
theorem ReadLoop.wake_holding (l : ReadLoop) : (l.wake .undefined).holding ≤ l.holding := by
  cases l with
  | readingBody res => exact Nat.zero_le _
  | _ => exact Nat.le_refl _

/-! ## Methods of the channel -/

theorem mem_cases {α : Type} {l : List α} {i : Nat} {a b : α} (hi : l[i]? = some a) (hb : b ∈ l) :
    b = a ∨ b ∈ l.eraseIdx i := by
  obtain ⟨j, hj⟩ := List.getElem?_of_mem hb
  by_cases hij : j = i
  · subst hij
    rw [hi] at hj
    exact .inl (Option.some.inj hj).symm
  · exact .inr (List.mem_eraseIdx_iff_getElem?.mpr ⟨j, hij, hj⟩)

theorem rank_waiters (waiters : List Waiter) :
    total Task.rank (waiters.map (Waiter.task none)) = waiters.length := by
  induction waiters with
  | nil => rfl
  | cons w waiters ih =>
    rw [List.map_cons, total_cons, ih, List.length_cons, Nat.add_comm]
    cases w <;> rfl

section Methods

variable {c : Chan} {p : Nat}

theorem write_open (hEOF : c.sentEOF = false) (hclose : c.sentClose = false) (buffer : List UInt8) :
    c.write buffer = ⟨c, [.encode (.data c.remoteId buffer.length buffer)], none⟩ := by
  have hsame : { c with sentClose := false } = c := by
    rw [← hclose]
  rw [Channel.write, if_neg (by simp [hEOF]), Channel.send, if_neg (by simp [hclose])]
  exact congrArg (fun ch => (⟨ch, _, none⟩ : Outcome)) hsame

theorem close_first (h : c.sentClose = false) : c.close p =
    ⟨{ c with sentClose := true }, [.encode (.close c.remoteId), .later (.closeSent p)], none⟩ := by
  rw [Channel.close, if_neg (by simp [h]), Channel.send, if_neg (by simp [h])]
  rfl

/-- The channel behind `shutdown`. -/
def shut (c : Chan) : Chan := { c with readBuf := none, ready := c.ready.close.1 }

theorem close_second (h : c.sentClose = true) : c.close p =
    ⟨shut c, c.readers.map (fun reader => .settle reader.1 .undefined) ++
      c.ready.close.2.map (fun waiter => .later (waiter.task none)) ++ [.rmCh c.localId] ++
        [.settle p .undefined], none⟩ := by
  rw [Channel.close, if_pos h]
  rfl

theorem shift_parks {waiter : Waiter} (hclosed : c.ready.closed = false) (hq : c.ready.q = []) :
    c.shift waiter =
      ⟨{ c with ready := { c.ready with waiters := c.ready.waiters ++ [waiter] } }, [], none⟩ := by
  simp [Channel.shift, Queue.shift, hclosed, hq]

theorem shift_closed {waiter : Waiter} (hclosed : c.ready.closed = true) :
    c.shift waiter = ⟨c, [.later (waiter.task none)], none⟩ := by
  rw [Channel.shift, Queue.shift, if_pos hclosed]
  rfl

variable {x : Party N ρ}

theorem foldl_later (ts : List Task) :
    (ts.map Effect.later).foldl Party.perform x = { x with tasks := x.tasks ++ ts } := by
  induction ts generalizing x with
  | nil => simp
  | cons t ts ih =>
    rw [List.map_cons, List.foldl_cons, ih]
    simp [Party.perform]

/-- The second event of the two that close a channel shuts it down. -/
theorem enter_shutdown (h : x.world.channel.sentClose = true)
    (hr : x.world.channel.readers = [] ∨ ∃ len, x.world.channel.readers = [(0, len)]) (hp : p ≠ 0) :
    ∃ fc, fc.readCount = x.world.fc.readCount ∧ fc.readLoop.rank = x.world.fc.readLoop.rank ∧
      fc.readLoop.holding ≤ x.world.fc.readLoop.holding ∧ x.enter (x.world.channel.close p) =
        { x with
          world := { x.world with channel := shut x.world.channel, fc }
          tasks := x.tasks ++ x.world.channel.ready.close.2.map (Waiter.task none)
          settled := x.settled ++ [p], removed := true } := by
  have hmap : x.world.channel.ready.close.2.map (fun waiter => Effect.later (waiter.task none)) =
      (x.world.channel.ready.close.2.map (Waiter.task none)).map Effect.later := by
    rw [List.map_map]
    rfl
  rw [close_second h, Party.enter]
  dsimp only
  rw [hmap, List.foldl_append, List.foldl_append, List.foldl_append, foldl_later]
  rcases hr with hr | ⟨len, hr⟩
  · rw [hr]
    exact ⟨x.world.fc, rfl, rfl, Nat.le_refl _, by simp [Party.perform, hp]⟩
  · rw [hr]
    exact ⟨{ x.world.fc with readLoop := x.world.fc.readLoop.wake .undefined }, rfl,
      ReadLoop.wake_rank _ _, ReadLoop.wake_holding _, by simp [Party.perform, World.finish, resultOf, hp]⟩

theorem enter_stand (o : Outcome) : (x.enter o).stand = x.stand := by
  have perform : ∀ (effects : List Effect) (y : Party N ρ),
      (effects.foldl Party.perform y).stand = y.stand := by
    intro effects
    induction effects with
    | nil => exact fun _ => rfl
    | cons e effects ih =>
      intro y
      rw [List.foldl_cons, ih]
      cases e with
      | settle p v =>
        rw [Party.perform]
        split <;> rfl
      | _ => rfl
  exact perform _ _

end Methods

/-! ## The codec -/

section Loop

/-- The fields that a channel must keep for its read loop. -/
theorem Serving.channel {codec : Codec (Json N)} {vs : List (Json N)} {w : World (Json N) Waiter}
    {unread held : List UInt8} (h : Serving codec vs w unread held) {c : Chan}
    (hbuf : c.readBuf = w.channel.readBuf) (heof : c.gotEOF = w.channel.gotEOF)
    (hreaders : c.readers = w.channel.readers) :
    Serving codec vs { w with channel := c } unread held :=
  { h with
    buffered := ⟨hbuf.trans h.buffered.buf, heof.trans h.buffered.more⟩
    mid := hreaders ▸ h.mid }

/-- What a turn of the read loop leaves as it is. -/
structure Kept (w w' : World (Json N) Waiter) : Prop where
  channel : ∃ readBuf readers, w'.channel = { w.channel with readBuf, readers }
  arrived : w'.arrived = w.arrived
  calls : w'.calls = w.calls
  resolved : w.resolved.length ≤ w'.resolved.length
  /-- of a channel that is shut down it leaves all -/
  shut : w.channel.readBuf = none → w'.channel = w.channel

theorem tryRead_kept (c : Chan) (p len : Nat) :
    (∃ readBuf readers, (c.tryRead p len).2 = { c with readBuf, readers }) ∧
      (c.readBuf = none → (c.tryRead p len).2 = c) := by
  rw [Channel.tryRead]
  cases hbuf : c.readBuf with
  | none => exact ⟨⟨c.readBuf, c.readers, rfl⟩, fun _ => rfl⟩
  | some buf =>
    refine ⟨?_, fun h => by cases h⟩
    dsimp only
    split
    · exact ⟨_, c.readers, rfl⟩
    · split
      · exact ⟨_, c.readers, rfl⟩
      · exact ⟨some buf, _, by rw [← hbuf]⟩

theorem resume_kept {codec : Codec (Json N)} {w w' : World (Json N) Waiter} (h : w.resume codec = some w') :
    Kept w w' := by
  have finish : ∀ l, Kept w (w.finish l) := fun l =>
    ⟨⟨w.channel.readBuf, w.channel.readers, rfl⟩, rfl, rfl, Nat.le_refl _, fun _ => rfl⟩
  have read : ∀ len await, Kept w (w.read len await) := fun len await =>
    ⟨(tryRead_kept _ _ _).1, rfl, rfl, Nat.le_refl _, (tryRead_kept _ _ _).2⟩
  rw [World.resume] at h
  split at h
  · cases h
    exact read _ _
  · cases h
    exact finish _
  · split at h <;> cases h
    · exact finish _
    · exact read _ _
  · cases h
    exact finish _
  · dsimp only at h
    split at h <;> cases h
    · exact ⟨⟨w.channel.readBuf, w.channel.readers, rfl⟩, rfl, rfl, Nat.le_refl _, fun _ => rfl⟩
    · next v _ =>
      obtain ⟨hchannel, harrived, hcalls, -, -⟩ := hand_frame w.count v
      refine ⟨⟨w.channel.readBuf, w.channel.readers, hchannel⟩, harrived, hcalls, ?_, fun _ => hchannel⟩
      show w.resolved.length ≤ (w.count.hand v).resolved.length
      rw [World.hand]
      split <;> simp [World.count]
  · cases h

theorem iterate_rank (fc : FrameCodec (Json N)) :
    fc.iterate.readLoop.rank ≤ 3 ∧ fc.iterate.readLoop.holding = 0 := by
  rw [FrameCodec.iterate]
  dsimp only
  split <;> exact ⟨by decide, rfl⟩

/-- A turn of the loop takes it on, with a value that there is still room for. -/
theorem resume_rank {codec : Codec (Json N)} {w w' : World (Json N) Waiter} {n : Nat}
    (h : w.resume codec = some w') (hle : w.fc.readCount + w.fc.readLoop.holding ≤ n) :
    4 * (n - w'.fc.readCount) + w'.fc.readLoop.rank < 4 * (n - w.fc.readCount) + w.fc.readLoop.rank ∧
      (w.channel.readBuf = none → w'.fc.readCount + w'.fc.readLoop.holding ≤ n) := by
  have read : ∀ len await, w.channel.readBuf = none →
      (w.read len await).fc.readLoop = await .undefined := by
    intro len await hbuf
    rw [World.read, Channel.tryRead, hbuf]
  rw [World.resume] at h
  generalize hl : w.fc.readLoop = readLoop at h hle
  cases readLoop with
  | yielded =>
    cases h
    refine ⟨Nat.add_lt_add_left (by decide : 2 < 3) _, fun hbuf => ?_⟩
    rw [read 4 .readingLen hbuf]
    exact hle
  | readingLen res =>
    cases res with
    | pending => cases h
    | undefined =>
      cases h
      exact ⟨Nat.add_lt_add_left (by decide : 0 < 2) _, fun _ => hle⟩
    | data lenPrefix =>
      dsimp only at h
      split at h <;> cases h
      · exact ⟨Nat.add_lt_add_left (by decide : 0 < 2) _, fun _ => hle⟩
      · refine ⟨Nat.add_lt_add_left (by decide : 1 < 2) _, fun hbuf => ?_⟩
        rw [read _ .readingBody hbuf]
        exact hle
  | readingBody res =>
    cases res with
    | pending => cases h
    | undefined =>
      cases h
      exact ⟨Nat.add_lt_add_left (by decide : 0 < 1) _, fun _ => hle⟩
    | data buf =>
      have hroom : w.fc.readCount + 1 ≤ n := hle
      dsimp only at h
      split at h <;> cases h
      · refine ⟨?_, fun _ => hroom⟩
        show 4 * (n - (w.fc.readCount + 1)) + 0 < 4 * (n - w.fc.readCount) + 1
        omega
      · next v _ =>
        obtain ⟨-, -, -, -, hcount⟩ := hand_frame w.count v
        obtain ⟨hrank, hholding⟩ := iterate_rank (w.count.hand v).fc
        have hcount : (w.count.value v).fc.readCount = w.fc.readCount + 1 := hcount
        rw [hcount]
        refine ⟨?_, fun _ => ?_⟩
        · show _ + (w.count.hand v).fc.iterate.readLoop.rank < _ + 1
          omega
        · show _ + (w.count.hand v).fc.iterate.readLoop.holding ≤ n
          rw [hholding]
          exact hroom
  | returned => cases h
  | threw => cases h

/-- A body that the loop holds is that of a value. -/
theorem Serving.room {codec : Codec (Json N)} {vs : List (Json N)} {w : World (Json N) Waiter}
    {unread held : List UInt8} (h : Serving codec vs w unread held) (hp : w.arrived <+: frames codec vs) :
    w.fc.readCount + w.fc.readLoop.holding ≤ vs.length := by
  have hcount := h.count
  rcases Nat.lt_or_ge w.fc.readCount vs.length with hlt | hge
  · have hle := w.fc.readLoop.holding_le
    omega
  · have hmid := h.mid
    have hcut : w.arrived <+: frames codec vs ++ [] := by rwa [List.append_nil]
    have hnext := h.next hcut (.inr (.inl rfl))
    generalize w.fc.readLoop = readLoop at hmid hnext
    generalize w.channel.readers = readers at hmid
    cases hmid with
    | gotBody hbs _ =>
      rcases hnext (by intro hl; cases hl) with ⟨-, hnil, -⟩ | ⟨v, hv, -⟩
      · rw [(List.append_eq_nil_iff.mp hnil).1] at hbs
        cases hbs
      · exact absurd (List.getElem?_eq_some_iff.mp hv).1 (Nat.not_lt.mpr hge)
    | _ => exact hcount

/-- What a data message leaves as it is. -/
structure Fed (w w' : World (Json N) Waiter) (data : List UInt8) : Prop where
  channel : ∃ readBuf readers,
    w'.channel = { w.channel with readBuf, readers, myWindow := w.channel.myWindow - data.length }
  calls : w'.calls = w.calls
  resolved : w'.resolved = w.resolved
  count : w'.fc.readCount = w.fc.readCount
  rank : w'.fc.readLoop.rank = w.fc.readLoop.rank

theorem arrive_fed {w : World (Json N) Waiter} {data : List UInt8}
    (hmax : data.length ≤ w.channel.maxIncomingPayload) (hwindow : data.length ≤ w.channel.myWindow) :
    ∃ w', w.arrive data = some w' ∧ Fed w w' data := by
  have ok : ∃ woken c, w.channel.handleData data.length data = .ok (woken, c) := by
    rw [Channel.handleData, if_neg (Nat.not_lt.mpr hmax), if_neg (Nat.not_lt.mpr hwindow)]
    split
    · exact ⟨_, _, rfl⟩
    · exact ⟨_, _, rfl⟩
  obtain ⟨woken, c, hc⟩ := ok
  have hchannel : ∃ readBuf readers,
      c = { w.channel with readBuf, readers, myWindow := w.channel.myWindow - data.length } := by
    obtain ⟨-, -, ⟨-, -, rfl⟩ | ⟨p, len, readers, -, -, rfl⟩⟩ := Channel.handleData_ok hc
    · exact ⟨_, _, rfl⟩
    · obtain ⟨readBuf, readers, htry⟩ := (tryRead_kept (w.channel.taken data.length data readers) p len).1
      exact ⟨readBuf, readers, htry⟩
  rw [World.arrive, hc]
  cases woken with
  | none => exact ⟨_, rfl, hchannel, rfl, rfl, rfl, rfl⟩
  | some woken => exact ⟨_, rfl, hchannel, rfl, rfl, rfl, ReadLoop.wake_rank _ _⟩

end Loop

end Qtalk.Js.Rpc
