import Qtalk.Lib.Calls
import Qtalk.Lib.Runs
import Qtalk.Mux.Accounts
import Qtalk.Mux.WriteLoop

/-!
# Writers at the window

Any number of `Write` calls on one channel, cut finer than in the channel model: the size of
a packet is chosen before `reserve` takes the lock of the window, a writer that finds nothing
waits on the condition variable, and a `Broadcast` wakes it some time before it has the lock
again. The peer may confirm, adjust and close as it likes.
-/

namespace Qtalk.Mux
open Qtalk.Codec Qtalk.Lib

/-- Where a `Write` stands. `limit` is the `maxRemotePayload` its size was chosen by. -/
inductive Phase where
  /-- at the head of the loop -/
  | loop
  /-- `space` is computed, `reserve` has not yet the lock -/
  | asking (limit size : UInt32)
  /-- inside `w.Wait()` -/
  | parked (limit size : UInt32)
  /-- a `Broadcast` has reached it, and it has not yet the lock again -/
  | woken (limit size : UInt32)
  /-- `reserve` has returned -/
  | granted (limit space : UInt32)
  | returned (err : Option WriteError)
  deriving DecidableEq, Repr

/-- A `Write`: the bytes left, and where it stands. -/
structure Writer where
  data : List UInt8
  phase : Phase := .loop
  deriving DecidableEq, Repr

namespace Writer

def wake (w : Writer) : Writer :=
  match w.phase with
  | .parked limit size => { w with phase := .woken limit size }
  | _ => w

def isParked (w : Writer) : Bool :=
  match w.phase with
  | .parked _ _ => true
  | _ => false

/-- How often the writer is counted in `writeWaiters`. -/
def waits (w : Writer) : Nat :=
  match w.phase with
  | .parked _ _ | .woken _ _ => 1
  | _ => 0

/-- What was granted and has not been sent. -/
def space (w : Writer) : Nat :=
  match w.phase with
  | .granted _ space => space.toNat
  | _ => 0

/-- What is asked for or granted is within the limit and the data. -/
def InBounds (w : Writer) : Prop :=
  match w.phase with
  | .asking limit n | .parked limit n | .woken limit n | .granted limit n =>
    n.toNat ≤ limit.toNat ∧ n.toNat ≤ w.data.length
  | _ => True

@[simp] theorem wake_parked (w : Writer) : w.wake.isParked = false := by
  cases w with
  | mk data phase => cases phase <;> rfl

@[simp] theorem wake_waits (w : Writer) : w.wake.waits = w.waits := by
  cases w with
  | mk data phase => cases phase <;> rfl

@[simp] theorem wake_space (w : Writer) : w.wake.space = w.space := by
  cases w with
  | mk data phase => cases phase <;> rfl

theorem wake_inBounds {w : Writer} (h : w.InBounds) : w.wake.InBounds := by
  cases w with
  | mk data phase => cases phase <;> exact h

/-- It waits for nothing and holds nothing. -/
structure Idle (w : Writer) : Prop where
  space : w.space = 0
  waits : w.waits = 0
  bounds : w.InBounds
  parked : w.isParked = false

theorem idle_loop (data : List UInt8) : Idle { data } := ⟨rfl, rfl, trivial, rfl⟩

theorem idle_returned (data : List UInt8) (e : Option WriteError) : Idle { data, phase := .returned e } :=
  ⟨rfl, rfl, trivial, rfl⟩

end Writer

/-- A channel and the calls of `Write` on it. -/
structure Sender where
  ch : Channel
  writers : List Writer
  /-- `writeWaiters` of the window -/
  writeWaiters : Nat
  -- history
  /-- the payloads handed to the encoder, with the limits their sizes were chosen by -/
  payloads : List (UInt32 × List UInt8)

namespace Sender

def start (ch : Channel) : Sender := ⟨ch, [], 0, []⟩

/-- `Broadcast` on the condition variable of the window. -/
def broadcast (s : Sender) : Sender := { s with writers := s.writers.map Writer.wake }

/-- `window.add`. -/
def add (s : Sender) (n : UInt32) : Sender :=
  match s.ch.addWindow n with
  | none => s
  | some ch => if n = 0 then { s with ch } else { s with ch }.broadcast

/-- `handle` of an `OpenConfirmMessage`. -/
def confirm (s : Sender) (m : OpenConfirmMessage) : Sender :=
  if s.ch.direction = .inbound then s
  else if m.maxPacketSize < minPacketLength ∨ m.maxPacketSize > maxPacketLength then s
  else
    { s with ch := { s.ch with remoteId := m.senderID, maxRemotePayload := m.maxPacketSize } }.add
      m.windowSize

/-- `window.close`. -/
def close (s : Sender) : Sender :=
  { s with ch := { s.ch with remoteWin := s.ch.remoteWin.close } }.broadcast

/-- `reserve` with the lock, from the test of its loop on: writer `k` waits, or it is granted
something and `writeWaiters` goes down. -/
def attempt (s : Sender) (k : Nat) (w : Writer) (limit size : UInt32) : Sender :=
  match s.ch.remoteWin.reserve size with
  | none => { s with writers := s.writers.set k { w with phase := .parked limit size } }
  | some (space, closed, win) =>
    let phase := if closed then .returned (some .eof) else .granted limit space
    { s with
      ch := { s.ch with remoteWin := win, reserved := s.ch.reserved + space.toNat }
      writeWaiters := s.writeWaiters - 1
      writers := s.writers.set k { w with phase } }

inductive Act where
  /-- a goroutine calls `Write` -/
  | write (data : List UInt8)
  /-- writer `k`: the loop condition and the size of the packet -/
  | choose (k : Nat)
  /-- writer `k`: `reserve` takes the lock -/
  | enter (k : Nat)
  /-- writer `k`: `w.Wait()` returns with the lock -/
  | recheck (k : Nat)
  /-- writer `k`: `Encode` -/
  | encode (k : Nat) (ok : Bool)
  | closeWrite
  -- the peer
  | confirm (m : OpenConfirmMessage)
  | adjust (m : WindowAdjustMessage)
  | close

def next (s : Sender) : Act → Option Sender
  | .write data =>
    let phase := if s.ch.sentEOF then .returned (some .eof) else .loop
    some { s with writers := s.writers ++ [{ data, phase }] }
  | .choose k => do
    let w ← s.writers[k]?
    match w.phase with
    | .loop =>
      let limit := s.ch.maxRemotePayload
      let phase := if w.data = [] then .returned none else .asking limit (Mux.min limit w.data.length)
      some { s with writers := s.writers.set k { w with phase } }
    | _ => none
  | .enter k => do
    let w ← s.writers[k]?
    match w.phase with
    | .asking limit size =>
      some ({ s with writeWaiters := s.writeWaiters + 1 }.broadcast.attempt k w limit size)
    | _ => none
  | .recheck k => do
    let w ← s.writers[k]?
    match w.phase with
    | .woken limit size => some (s.attempt k w limit size)
    | _ => none
  | .encode k ok => do
    let w ← s.writers[k]?
    match w.phase with
    | .granted limit space =>
      let toSend := w.data.take space.toNat
      let w := if ok then { data := w.data.drop toSend.length }
        else { w with phase := .returned (some .encode) }
      some { s with writers := s.writers.set k w, payloads := s.payloads ++ [(limit, toSend)] }
    | _ => none
  | .closeWrite => some { s with ch := s.ch.CloseWrite }
  | .confirm m => some (s.confirm m)
  | .adjust m => some (s.add m.additionalBytes)
  | .close => some s.close

/-! ## The peer's messages are those of the channel model -/

/-- `add` rejects an update exactly if the sum needs more than 32 bits. -/
theorem add_eq_none {w : Window} {n : UInt32} : w.add n = none ↔ 2 ^ 32 - 1 < w.win.toNat + n.toNat := by
  constructor
  · intro h
    by_contra hle
    obtain ⟨w', hw⟩ := Window.add_isSome (w := w) (n := n) (by omega)
    rw [h] at hw
    cases hw
  · intro hlt
    cases h : w.add n with
    | none => rfl
    | some w' =>
      have hadd := (Window.add_eq_some h).1
      have := w'.win.toNat_lt
      omega

theorem add_none {s : Sender} {n : UInt32} (h : s.ch.remoteWin.add n = none) : s.add n = s := by
  simp [add, Channel.addWindow, h]

theorem add_zero (s : Sender) : s.add 0 = s := by
  simp [add, Channel.addWindow, Window.add]

theorem add_some {s : Sender} {n : UInt32} {win : Window} (hn : n ≠ 0)
    (h : s.ch.remoteWin.add n = some win) :
    s.add n = { s with
      ch := { s.ch with remoteWin := win, credit := s.ch.credit + n.toNat }
      writers := s.writers.map Writer.wake } := by
  simp only [add, Channel.addWindow, h, bind, Option.bind_some, broadcast, if_neg hn]

theorem add_ch (s : Sender) (n : UInt32) : (s.add n).ch = (s.ch.addWindow n).getD s.ch := by
  rw [add]
  cases s.ch.addWindow n with
  | none => rfl
  | some ch =>
    dsimp only
    split <;> rfl

theorem adjust_handle (s : Sender) (c : Nat) (m : WindowAdjustMessage) :
    s.ch.handle c (.windowAdjust m) = if s.ch.remoteWin.add m.additionalBytes = none then
      .error (.invalidWindowUpdate m.additionalBytes) else .ok ((s.add m.additionalBytes).ch, []) := by
  rw [add_ch]
  cases h : s.ch.remoteWin.add m.additionalBytes with
  | none => simp [Channel.handle, Channel.addWindow, h]
  | some win => simp [Channel.handle, Channel.addWindow, h]

theorem confirm_handle {s : Sender} {c : Nat} {m : OpenConfirmMessage} {r : Channel × List LoopOp}
    (h : s.ch.handle c (.openConfirm m) = .ok r) : (s.confirm m).ch = r.1 := by
  simp only [Channel.handle] at h
  rw [confirm]
  split at h
  · cases h
  · next hd =>
    split at h
    · cases h
    · next hsize =>
      cases h
      rw [if_neg hd, if_neg hsize, add_ch]

theorem confirm_refused {s : Sender} {c : Nat} {m : OpenConfirmMessage} {e : LoopError}
    (h : s.ch.handle c (.openConfirm m) = .error e) : s.confirm m = s := by
  simp only [Channel.handle] at h
  rw [confirm]
  split at h
  · next hd => rw [if_pos hd]
  · next hd =>
    split at h
    · next hsize => rw [if_neg hd, if_pos hsize]
    · cases h

/-! ## The accounts -/

structure Accounted (s : Sender) : Prop where
  /-- the window is what was credited and is not reserved -/
  balance : s.ch.remoteWin.win.toNat + s.ch.reserved = s.ch.credit
  spent : total Writer.space s.writers + total (·.2.length) s.payloads ≤ s.ch.reserved
  bounds : ∀ w ∈ s.writers, w.InBounds
  limits : ∀ p ∈ s.payloads, p.2.length ≤ p.1.toNat
  /-- whoever waits without a wake-up has nothing to wake up for -/
  parked : ∀ w ∈ s.writers, w.isParked = true → s.ch.remoteWin.win = 0 ∧ s.ch.remoteWin.closed = false
  waiters : s.writeWaiters = total Writer.waits s.writers

theorem total_map {α : Type} {f : α → Nat} {g : α → α} (h : ∀ a, f (g a) = f a) (l : List α) :
    total f (l.map g) = total f l := by
  rw [total, List.map_map, total]
  exact congrArg List.sum (List.map_congr_left fun a _ => h a)

/-- After a `Broadcast` nobody is parked. -/
theorem Accounted.broadcast {s s' : Sender} (h : s.Accounted)
    (hwin : s'.ch.remoteWin.win.toNat + s'.ch.reserved = s'.ch.credit)
    (hres : s'.ch.reserved = s.ch.reserved) (hpay : s'.payloads = s.payloads)
    (hcount : s'.writeWaiters = s.writeWaiters)
    (hw : s'.writers = s.writers.map Writer.wake) : s'.Accounted := by
  refine ⟨hwin, ?_, ?_, ?_, ?_, ?_⟩
  · rw [hw, hres, hpay, total_map Writer.wake_space]
    exact h.spent
  · rw [hw]
    intro w hin
    obtain ⟨w', hin', rfl⟩ := List.mem_map.mp hin
    exact Writer.wake_inBounds (h.bounds w' hin')
  · rw [hpay]
    exact h.limits
  · rw [hw]
    intro w hin hp
    obtain ⟨w', hin', rfl⟩ := List.mem_map.mp hin
    rw [Writer.wake_parked] at hp
    cases hp
  · rw [hw, hcount, total_map Writer.wake_waits]
    exact h.waiters

theorem Accounted.add {s : Sender} (h : s.Accounted) (n : UInt32) : (s.add n).Accounted := by
  by_cases hn : n = 0
  · rw [hn, add_zero]
    exact h
  · cases ha : s.ch.remoteWin.add n with
    | none =>
      rw [add_none ha]
      exact h
    | some win =>
      obtain ⟨hwin, -⟩ := Window.add_eq_some ha
      have hbal := h.balance
      rw [add_some hn ha]
      refine h.broadcast ?_ rfl rfl rfl rfl
      dsimp only
      omega

/-- The other fields of the channel do not matter. -/
theorem Accounted.congr {s s' : Sender} (h : s.Accounted) (hwin : s'.ch.remoteWin = s.ch.remoteWin)
    (hres : s'.ch.reserved = s.ch.reserved) (hcredit : s'.ch.credit = s.ch.credit)
    (hpay : s'.payloads = s.payloads) (hcount : s'.writeWaiters = s.writeWaiters)
    (hw : s'.writers = s.writers) : s'.Accounted := by
  constructor
  · rw [hwin, hres, hcredit]
    exact h.balance
  · rw [hw, hpay, hres]
    exact h.spent
  · rw [hw]
    exact h.bounds
  · rw [hpay]
    exact h.limits
  · rw [hw, hwin]
    exact h.parked
  · rw [hw, hcount]
    exact h.waiters

/-- One writer moves on, and hands over what it was granted. -/
theorem Accounted.set {s s' : Sender} (h : s.Accounted) {k : Nat} {w w' : Writer}
    (hk : s.writers[k]? = some w) (hch : s'.ch = s.ch) (hw : s'.writers = s.writers.set k w')
    (hcount : s'.writeWaiters = s.writeWaiters) (hwaits : w'.waits = w.waits)
    (hspace : w'.space + total (·.2.length) s'.payloads ≤ w.space + total (·.2.length) s.payloads)
    (hbounds : w'.InBounds) (hlimits : ∀ p ∈ s'.payloads, p.2.length ≤ p.1.toNat)
    (hparked : w'.isParked = false) : s'.Accounted := by
  have hsp := total_set (b := w') (f := Writer.space) hk
  have hwt := total_set (b := w') (f := Writer.waits) hk
  have hspent := h.spent
  have hwaiters := h.waiters
  constructor
  · rw [hch]
    exact h.balance
  · rw [hw, hch]
    omega
  · rw [hw]
    exact forall_set h.bounds hbounds
  · exact hlimits
  · rw [hw, hch]
    refine forall_set h.parked fun hp => ?_
    rw [hparked] at hp
    cases hp
  · rw [hw, hcount]
    rw [hwaits] at hwt
    omega

/-- `reserve` grants no more than was asked for or is there, and without an error something. -/
theorem reserve_bounds {w w' : Window} {n g : UInt32} {closed : Bool}
    (h : w.reserve n = some (g, closed, w')) :
    g.toNat ≤ n.toNat ∧ g.toNat ≤ w.win.toNat ∧ (n ≠ 0 → closed = false → g ≠ 0) := by
  obtain ⟨hsum, hle, -⟩ := Window.reserve_eq_some h
  refine ⟨hle, by omega, fun hn hopen hz => ?_⟩
  rw [Window.reserve] at h
  split at h
  · cases h
  · next hwait =>
    simp only [Option.some.injEq, Prod.mk.injEq] at h
    obtain ⟨hg, hcl, -⟩ := h
    have hwin : w.win ≠ 0 := fun h0 => hwait ⟨h0, hcl.trans hopen⟩
    rw [hz] at hg
    split at hg
    · exact hwin hg
    · exact hn hg

theorem reserve_eq_none {w : Window} {n : UInt32} : w.reserve n = none ↔ w.win = 0 ∧ w.closed = false := by
  rw [Window.reserve]
  split
  · next h => exact ⟨fun _ => h, fun _ => rfl⟩
  · next h =>
    constructor
    · intro h'
      cases h'
    · exact fun h' => absurd h' h

theorem Accounted.attempt {s : Sender} {k : Nat} {w : Writer} {limit size : UInt32}
    (hbal : s.ch.remoteWin.win.toNat + s.ch.reserved = s.ch.credit)
    (hspent : total Writer.space s.writers + total (·.2.length) s.payloads ≤ s.ch.reserved)
    (hbounds : ∀ w ∈ s.writers, w.InBounds) (hlimits : ∀ p ∈ s.payloads, p.2.length ≤ p.1.toNat)
    (hparked : ∀ w ∈ s.writers, w.isParked = true →
      s.ch.remoteWin.win = 0 ∧ s.ch.remoteWin.closed = false)
    (hwaiters : s.writeWaiters + w.waits = total Writer.waits s.writers + 1)
    (hk : s.writers[k]? = some w) (hs : w.space = 0)
    (hin : size.toNat ≤ limit.toNat ∧ size.toNat ≤ w.data.length) :
    (s.attempt k w limit size).Accounted := by
  rw [Sender.attempt]
  cases hr : s.ch.remoteWin.reserve size with
  | none =>
    obtain ⟨hzero, hopen⟩ := reserve_eq_none.mp hr
    have hsp := total_set (b := { w with phase := .parked limit size }) (f := Writer.space) hk
    have hwt := total_set (b := { w with phase := .parked limit size }) (f := Writer.waits) hk
    have h1 : Writer.waits { w with phase := .parked limit size } = 1 := rfl
    have h0 : Writer.space { w with phase := .parked limit size } = 0 := rfl
    constructor
    · exact hbal
    · dsimp only
      omega
    · exact forall_set hbounds hin
    · exact hlimits
    · exact fun _ _ _ => ⟨hzero, hopen⟩
    · dsimp only
      omega
  | some r =>
    obtain ⟨space, closed, win⟩ := r
    obtain ⟨hsum, hle, hcl, hcl'⟩ := Window.reserve_eq_some hr
    have hpark : ¬ (s.ch.remoteWin.win = 0 ∧ s.ch.remoteWin.closed = false) := by
      intro hno
      rw [reserve_eq_none.mpr hno] at hr
      cases hr
    have hphase : ∀ phase, (phase = .returned (some .eof) ∨ phase = .granted limit space) →
        (Writer.space { w with phase } ≤ space.toNat) ∧ Writer.waits { w with phase } = 0 ∧
          Writer.InBounds { w with phase } ∧ Writer.isParked { w with phase } = false := by
      rintro phase (rfl | rfl)
      · exact ⟨Nat.zero_le _, rfl, trivial, rfl⟩
      · exact ⟨Nat.le_refl _, rfl, ⟨hle.trans hin.1, hle.trans hin.2⟩, rfl⟩
    obtain ⟨h1, h2, h3, h4⟩ := hphase (if closed then .returned (some .eof) else .granted limit space)
      (by cases closed <;> simp)
    have hsp := total_set (b := { w with phase := if closed then .returned (some .eof) else .granted limit space })
      (f := Writer.space) hk
    have hwt := total_set (b := { w with phase := if closed then .returned (some .eof) else .granted limit space })
      (f := Writer.waits) hk
    constructor
    · dsimp only
      omega
    · dsimp only
      omega
    · exact forall_set hbounds h3
    · exact hlimits
    · refine forall_set (fun v hv hp => absurd (hparked v hv hp) hpark) fun hp => ?_
      rw [h4] at hp
      cases hp
    · dsimp only
      omega

theorem Accounted.append {s : Sender} (h : s.Accounted) {w : Writer} (hw : w.Idle) :
    Accounted { s with writers := s.writers ++ [w] } := by
  constructor
  · exact h.balance
  · rw [total_append, total_cons, total_nil, hw.space]
    exact h.spent
  · intro v hv
    rcases List.mem_append.mp hv with hv | hv
    · exact h.bounds v hv
    · rw [List.mem_singleton.mp hv]
      exact hw.bounds
  · exact h.limits
  · intro v hv hp
    rcases List.mem_append.mp hv with hv | hv
    · exact h.parked v hv hp
    · rw [List.mem_singleton.mp hv, hw.parked] at hp
      cases hp
  · rw [total_append, total_cons, total_nil, hw.waits]
    exact h.waiters

/-- The writer hands over all that it was granted. -/
theorem Accounted.sent {s : Sender} (h : s.Accounted) {k : Nat} {w w' : Writer} {limit space : UInt32}
    (hk : s.writers[k]? = some w) (hw : w.phase = .granted limit space) (hw' : w'.Idle) :
    Accounted { s with
      writers := s.writers.set k w'
      payloads := s.payloads ++ [(limit, w.data.take space.toNat)] } := by
  have hin := h.bounds w (List.mem_of_getElem? hk)
  rw [Writer.InBounds, hw] at hin
  have hspace : w.space = space.toNat := by simp [Writer.space, hw]
  have hwaits : w.waits = 0 := by simp [Writer.waits, hw]
  have hlen : (w.data.take space.toNat).length = space.toNat := by
    rw [List.length_take]
    omega
  have hpay : total (·.2.length) (s.payloads ++ [(limit, w.data.take space.toNat)]) =
      total (·.2.length) s.payloads + space.toNat := by
    rw [total_append, total_cons, total_nil, hlen]
    rfl
  refine h.set hk rfl rfl rfl (hw'.waits.trans hwaits.symm) ?_ hw'.bounds (fun p hp => ?_) hw'.parked
  · rw [hpay, hspace, hw'.space]
    omega
  · rcases List.mem_append.mp hp with hp | hp
    · exact h.limits p hp
    · rw [List.mem_singleton.mp hp, hlen]
      exact hin.1

theorem Accounted.step {s s' : Sender} (h : s.Accounted) {a : Act} (hn : s.next a = some s') :
    s'.Accounted := by
  cases a with
  | write data =>
    cases hn
    apply h.append
    split
    · exact Writer.idle_returned _ _
    · exact Writer.idle_loop _
  | choose k =>
    obtain ⟨w, hk, hn⟩ := Option.bind_eq_some_iff.mp hn
    split at hn
    · next hw =>
      cases hn
      have h0 : w.space = 0 ∧ w.waits = 0 := by simp [Writer.space, Writer.waits, hw]
      by_cases hd : w.data = []
      · rw [if_pos hd]
        refine h.set hk rfl rfl rfl h0.2.symm ?_ trivial h.limits rfl
        rw [h0.1]
        exact Nat.le_refl _
      · rw [if_neg hd]
        refine h.set hk rfl rfl rfl h0.2.symm ?_ ⟨min_le_left _ _, min_le_right _ _⟩ h.limits rfl
        rw [h0.1]
        exact Nat.le_refl _
    · cases hn
  | enter k =>
    obtain ⟨w, hk, hn⟩ := Option.bind_eq_some_iff.mp hn
    split at hn
    · next limit size hw =>
      cases hn
      have hin := h.bounds w (List.mem_of_getElem? hk)
      rw [Writer.InBounds, hw] at hin
      have hb : s.broadcast.Accounted := h.broadcast h.balance rfl rfl rfl rfl
      have hwake : w.wake = w := by simp [Writer.wake, hw]
      have hwaits : w.waits = 0 := by simp [Writer.waits, hw]
      refine Accounted.attempt hb.balance hb.spent hb.bounds hb.limits hb.parked ?_ ?_ ?_ hin
      · have := hb.waiters
        rw [hwaits]
        exact congrArg Nat.succ this
      · show (s.writers.map Writer.wake)[k]? = some w
        rw [List.getElem?_map, hk, Option.map_some, hwake]
      · simp [Writer.space, hw]
    · cases hn
  | recheck k =>
    obtain ⟨w, hk, hn⟩ := Option.bind_eq_some_iff.mp hn
    split at hn
    · next limit size hw =>
      cases hn
      have hin := h.bounds w (List.mem_of_getElem? hk)
      rw [Writer.InBounds, hw] at hin
      have hwaits : w.waits = 1 := by simp [Writer.waits, hw]
      refine Accounted.attempt h.balance h.spent h.bounds h.limits h.parked ?_ hk ?_ hin
      · rw [hwaits, h.waiters]
      · simp [Writer.space, hw]
    · cases hn
  | encode k ok =>
    obtain ⟨w, hk, hn⟩ := Option.bind_eq_some_iff.mp hn
    split at hn
    · next limit space hw =>
      cases hn
      apply h.sent hk hw
      cases ok with
      | true => exact Writer.idle_loop _
      | false => exact Writer.idle_returned _ _
    · cases hn
  | closeWrite =>
    cases hn
    exact h.congr rfl rfl rfl rfl rfl rfl
  | confirm m =>
    cases hn
    rw [confirm]
    split
    · exact h
    · split
      · exact h
      · apply Accounted.add
        exact h.congr rfl rfl rfl rfl rfl rfl
  | adjust m =>
    cases hn
    exact h.add _
  | close =>
    cases hn
    exact h.broadcast h.balance rfl rfl rfl rfl

theorem Accounted.start {ch : Channel} (h : ch.remoteWin.win.toNat = ch.credit)
    (hres : ch.reserved = 0) : (start ch).Accounted := by
  refine ⟨?_, Nat.zero_le _, by simp [Sender.start], by simp [Sender.start], by simp [Sender.start], rfl⟩
  show ch.remoteWin.win.toNat + ch.reserved = ch.credit
  rw [hres, h, Nat.add_zero]

/-- The channel was just made, by `Open` or by the loop. -/
def Made (ch : Channel) : Prop :=
  (∃ id, ch = Session.outboundChannel id) ∨ ∃ m id, ch = Session.inboundChannel m id

theorem Accounted.of_run {ch : Channel} {s : Sender} (hch : Made ch)
    (run : Run next anyStep (Sender.start ch) s) : s.Accounted := by
  refine run.invariant ?_ fun s a s' _ h _ hn => h.step hn
  rcases hch with ⟨id, rfl⟩ | ⟨m, id, rfl⟩
  · exact .start rfl rfl
  · refine .start ?_ rfl
    rw [Session.inboundChannel, Session.add_empty]

/-- The accounts of the send window. -/
structure WindowKept (s : Sender) : Prop where
  balance : s.ch.remoteWin.win.toNat + s.ch.reserved = s.ch.credit
  accepts : ∀ n, s.ch.remoteWin.win.toNat + n.toNat ≤ 2 ^ 32 - 1 →
    (s.add n).ch.remoteWin.win.toNat = s.ch.remoteWin.win.toNat + n.toNat ∧
      (s.add n).ch.credit = s.ch.credit + n.toNat
  rejects : ∀ n, 2 ^ 32 - 1 < s.ch.remoteWin.win.toNat + n.toNat →
    s.ch.remoteWin.add n = none ∧ s.add n = s
  grants : ∀ n g closed w, s.ch.remoteWin.reserve n = some (g, closed, w) →
    g.toNat ≤ n.toNat ∧ g.toNat ≤ s.ch.remoteWin.win.toNat ∧ (n ≠ 0 → closed = false → g ≠ 0)
  /-- the data sent never exceeds the credit received -/
  sent : (s.payloads.flatMap Prod.snd).length ≤ s.ch.credit
  /-- each payload fits the limit its size was chosen by -/
  limits : ∀ p ∈ s.payloads, p.2.length ≤ p.1.toNat
  /-- no writer sleeps while there is something for it -/
  awake : 0 < s.ch.remoteWin.win ∨ s.ch.remoteWin.closed = true →
    ∀ w ∈ s.writers, w.isParked = false

theorem window_kept {ch : Channel} {s : Sender} (hch : Made ch)
    (run : Run next anyStep (Sender.start ch) s) : s.WindowKept := by
  have h := Accounted.of_run hch run
  have hbal := h.balance
  refine ⟨hbal, fun n hn => ?_, fun n hn => ?_, fun n g closed w hr => reserve_bounds hr, ?_, h.limits,
    fun hpos w hw => ?_⟩
  · obtain ⟨win, hwin⟩ := Window.add_isSome (w := s.ch.remoteWin) (n := n) (by omega)
    rw [add_ch]
    simp only [Channel.addWindow, hwin, bind, Option.bind_some, Option.getD_some]
    exact ⟨(Window.add_eq_some hwin).1, trivial⟩
  · have hnone := add_eq_none.mpr hn
    exact ⟨hnone, add_none hnone⟩
  · have hspent := h.spent
    have hlen : (s.payloads.flatMap Prod.snd).length = total (·.2.length) s.payloads := by
      rw [List.length_flatMap]
      rfl
    omega
  · cases hp : w.isParked with
    | false => rfl
    | true =>
      obtain ⟨hzero, hopen⟩ := h.parked w hw hp
      rcases hpos with hpos | hcl
      · rw [hzero] at hpos
        exact absurd hpos (by decide)
      · rw [hopen] at hcl
        cases hcl

/-- Two writers wait; an update wakes both, and the first leaves nothing to the second. -/
theorem window_kept_run : ∃ s : Sender, s.WindowKept ∧ s.ch.remoteWin.win = 0 ∧ s.ch.reserved = 2 ∧
    s.writers.map Writer.isParked = [false, true] := by
  obtain ⟨s, run, hs⟩ := Run.of_exec next anyStep (Sender.start (Session.outboundChannel 0))
    [.confirm ⟨0, 5, 0, 9⟩, .write [1, 2, 3], .write [4], .choose 0, .choose 1, .enter 0, .enter 1,
      .adjust ⟨0, 2⟩, .recheck 0, .adjust ⟨0, 0⟩, .recheck 1, .encode 0 true]
    (fun s => decide (s.ch.remoteWin.win = 0 ∧ s.ch.reserved = 2 ∧
      s.writers.map Writer.isParked = [false, true])) (by decide +kernel)
  simp only [decide_eq_true_eq] at hs
  exact ⟨s, window_kept (.inl ⟨0, rfl⟩) run, hs⟩

/-- The channel model's `reserve` is a choice and an entry that does not wait. -/
theorem reserves {s : Sender} {k : Nat} {w : Writer} {call : WriteCall} {ch' : Channel}
    (hk : s.writers[k]? = some w) (hw : w.phase = .loop) (hcall : s.ch.writes[k]? = some call)
    (hdata : call.data = w.data) (hne : w.data ≠ []) (hr : s.ch.reserve k = some ch') :
    ∃ s₁ s₂, s.next (.choose k) = some s₁ ∧ s₁.next (.enter k) = some s₂ ∧
      s₂.ch.remoteWin = ch'.remoteWin ∧ s₂.ch.reserved = ch'.reserved := by
  obtain ⟨hlt, -⟩ := List.getElem?_eq_some_iff.mp hk
  obtain ⟨call', hcall', hr⟩ := Option.bind_eq_some_iff.mp hr
  rw [hcall] at hcall'
  cases hcall'
  rw [hdata, if_neg hne] at hr
  split at hr
  · cases hr
  · obtain ⟨⟨space, closed, win⟩, hres, hr⟩ := Option.bind_eq_some_iff.mp hr
    let size := Mux.min s.ch.maxRemotePayload w.data.length
    let asking : Writer := { w with phase := .asking s.ch.maxRemotePayload size }
    let s₁ : Sender := { s with writers := s.writers.set k asking }
    let s₂ : Sender := { s₁ with writeWaiters := s₁.writeWaiters + 1 }.broadcast.attempt k asking
      s.ch.maxRemotePayload size
    have hchoose : s.next (.choose k) = some s₁ := by
      simp only [next, hk, bind, Option.bind_some, hw, if_neg hne]
      rfl
    have henter : s₁.next (.enter k) = some s₂ := by
      simp only [next, s₁, List.getElem?_set_self hlt, bind, Option.bind_some]
      rfl
    refine ⟨s₁, s₂, hchoose, henter, ?_⟩
    simp only [s₂, s₁, size, attempt, broadcast, hres]
    cases closed with
    | true =>
      cases hr
      exact ⟨rfl, rfl⟩
    | false =>
      cases hr
      exact ⟨rfl, rfl⟩

end Sender

end Qtalk.Mux
