import Qtalk.Codec.Decoder
import Qtalk.Mux.Util

/-!
# One channel

`channel` of `golang/mux/channel.go`. A method of the source is cut where another
goroutine can get in: at each critical section, at each wait and at each hand-over of a
message to the encoder. What lies between two cuts is one function here. A call in
progress is kept with the channel until it returns (`WriteCall`, `ReadCall`), so any
number of goroutines may be inside `Write` and `Read`.

The last group of fields is history. No function reads it; the theorems are about it.
-/

namespace Qtalk.Mux
open Qtalk.Codec

def minPacketLength : UInt32 := 9
def maxPacketLength : UInt32 := 2147483648

def channelMaxPacket : UInt32 := 32768
def channelWindowSize : UInt32 := 2097152

/-- The size that a session sends is one that a session accepts. -/
theorem channelMaxPacket_ok :
    ¬ (channelMaxPacket < minPacketLength ∨ channelMaxPacket > maxPacketLength) := by decide

/-- The capacity of `msg` and of `incomingChannels`. -/
def chanSize : Nat := 16

inductive ChannelDirection where
  | inbound
  | outbound
  deriving DecidableEq, Repr

/-- A `Write` in progress: the bytes it has handed over (`n` counts them), the bytes
left, and what `reserve` granted when the packet is about to be encoded. -/
structure WriteCall where
  done : List UInt8 := []
  data : List UInt8
  granted : Option UInt32 := none
  deriving DecidableEq, Repr

/-- A `Read` that took bytes from the buffer and is inside `adjustWindow`: before or
behind the increment of `myWindow`. -/
inductive ReadCall where
  | took (n : UInt32)
  | credited (n : UInt32)
  deriving DecidableEq, Repr

/-- Where `session.Open` stands with the channel it creates. -/
inductive OpenCall where
  | registered
  | waiting
  | returned
  deriving DecidableEq, Repr

structure Channel where
  localId : UInt32 := 0
  remoteId : UInt32 := 0
  maxIncomingPayload : UInt32 := 0
  maxRemotePayload : UInt32 := 0
  direction : ChannelDirection
  msg : List Message := []
  msgClosed : Bool := false
  sentEOF : Bool := false
  remoteWin : Window := {}
  pending : Buffer := {}
  myWindow : UInt32 := channelWindowSize
  sentClose : Bool := false
  -- calls in progress
  opening : OpenCall := .returned
  /-- `Open` or `Accept` has returned the channel -/
  held : Bool := false
  writes : List WriteCall := []
  reads : List ReadCall := []
  /-- `CloseWrite` calls that have set `sentEOF` and not yet sent -/
  closeWrites : Nat := 0
  -- history
  /-- messages handed to the encoder for this channel -/
  sent : List Message := []
  /-- messages the session loop handed to this channel and that it accepted -/
  handled : List Message := []
  /-- bytes the returned `Write` calls reported as written -/
  wrote : List (List UInt8) := []
  /-- bytes the `Read` calls took from the buffer -/
  got : List UInt8 := []
  /-- total of the accepted `remoteWin.add` calls -/
  credit : Nat := 0
  /-- total of what `remoteWin.reserve` granted -/
  reserved : Nat := 0

/-- What ends the session loop. -/
inductive LoopError where
  | decode (e : DecodeError)
  /-- `qmux: invalid channel %d` -/
  | invalidChannel (id : UInt32)
  /-- `qmux: incoming packet exceeds maximum payload size` -/
  | exceedsMaxPayload
  /-- `qmux: wrong packet length` -/
  | wrongLength
  /-- `qmux: remote side wrote too much` -/
  | wroteTooMuch
  /-- `qmux: invalid window update for %d bytes` -/
  | invalidWindowUpdate (n : UInt32)
  /-- `qmux: channel response message received on inbound channel` -/
  | responseOnInbound
  /-- `qmux: invalid MaxPacketSize %d from peer` -/
  | invalidMaxPacketSize (n : UInt32)
  /-- `qmux: invalid channel message %v` -/
  | invalidMessage
  /-- the error of a failed `Encode` -/
  | encode
  deriving DecidableEq, Repr

/-- What the session loop still has to do for the packet in hand, or on its way out.
`c` refers to a channel object. -/
inductive LoopOp where
  /-- `incomingChannels <- c` -/
  | publish (c : Nat)
  /-- encode the `OpenConfirmMessage` -/
  | confirm (c : Nat)
  /-- encode the `OpenFailureMessage` -/
  | reject (id : UInt32)
  /-- `msg <- m` -/
  | queue (c : Nat) (m : Message)
  /-- `send` of the `CloseMessage` that answers one -/
  | reply (c : Nat)
  /-- `chanList.remove` -/
  | remove (id : UInt32)
  /-- `close()`: `pending.eof()` -/
  | eof (c : Nat)
  /-- `close()`: `close(c.msg)` -/
  | closeMsg (c : Nat)
  /-- `close()`: `sentClose = true` -/
  | markClosed (c : Nat)
  /-- `close()`: `remoteWin.close()` -/
  | closeWin (c : Nat)
  /-- `chanList.dropAll()` -/
  | dropAll
  /-- `conn.Close()` -/
  | connClose
  /-- `closeCh <- true` -/
  | signal
  /-- `s.err = err` -/
  | setErr (e : LoopError)
  deriving DecidableEq, Repr

/-- `channel.close`. -/
def closeOps (c : Nat) : List LoopOp := [.eof c, .closeMsg c, .markClosed c, .closeWin c]

namespace Channel

/-! ## Sending -/

/-- `send`, under `writeMu`: nothing after a `CloseMessage`. -/
def send (ch : Channel) (m : Message) : Channel × List Message :=
  if ch.sentClose then (ch, [])
  else
    match m with
    | .close _ => ({ ch with sentClose := true }, [m])
    | _ => (ch, [m])

/-- `Close`. -/
def Close (ch : Channel) : Channel × List Message :=
  ch.send (.close { channelID := ch.remoteId })

/-- `CloseWrite`, its first statement. -/
def CloseWrite (ch : Channel) : Channel :=
  { ch with sentEOF := true, closeWrites := ch.closeWrites + 1 }

/-- `CloseWrite`, the `send`. -/
def sendEOF (ch : Channel) : Option (Channel × List Message) :=
  if ch.closeWrites = 0 then none
  else some ({ ch with closeWrites := ch.closeWrites - 1 }.send (.eof { channelID := ch.remoteId }))

/-- `Write`, its first test. -/
def Write (ch : Channel) (data : List UInt8) : Channel :=
  if ch.sentEOF then { ch with wrote := ch.wrote ++ [[]] }
  else { ch with writes := ch.writes ++ [{ data }] }

/-- A `Write` returns and reports `n`. -/
def writeReturn (ch : Channel) (k : Nat) (w : WriteCall) : Channel :=
  { ch with writes := ch.writes.eraseIdx k, wrote := ch.wrote ++ [w.done] }

/-- `Write` number `k`: the loop condition, the packet size and `reserve`. A closed
window is charged too, and ends the call. -/
def reserve (ch : Channel) (k : Nat) : Option Channel := do
  let w ← ch.writes[k]?
  if w.granted.isSome then none
  else if w.data = [] then some (ch.writeReturn k w)
  else
    let (space, closed, win) ← ch.remoteWin.reserve (Mux.min ch.maxRemotePayload w.data.length)
    let ch := { ch with remoteWin := win, reserved := ch.reserved + space.toNat }
    if closed then some (ch.writeReturn k w)
    else some { ch with writes := ch.writes.set k { w with granted := some space } }

/-- `Write` number `k`: `Encode` of the packet, `n += len(toSend)` and the advance of
`data`. It does not take `writeMu`. -/
def sendData (ch : Channel) (k : Nat) (ok : Bool) : Option (Channel × List Message) := do
  let w ← ch.writes[k]?
  let space ← w.granted
  let toSend := w.data.take space.toNat
  let m := .data { channelID := ch.remoteId, length := UInt32.ofNat toSend.length, data := toSend }
  if ok then
    let w := { done := w.done ++ toSend, data := w.data.drop toSend.length, granted := none }
    some ({ ch with writes := ch.writes.set k w }, [m])
  else some (ch.writeReturn k w, [m])

/-! ## Reading -/

/-- `Read` into a buffer of length `n`, up to the return of `pending.Read`; at the end of
the stream nothing changes. -/
def Read (ch : Channel) (n : Nat) : Option Channel :=
  match ch.pending.Read n with
  | .bytes [] b => some { ch with pending := b }
  | .bytes bs b =>
    some { ch with
      pending := b, got := ch.got ++ bs, reads := ch.reads ++ [.took (UInt32.ofNat bs.length)] }
  | .eof => some ch
  | .wait => none

/-- `adjustWindow`, under `windowMu`. -/
def adjustWindow (ch : Channel) (k : Nat) : Option Channel := do
  match ← ch.reads[k]? with
  | .took n => some { ch with myWindow := ch.myWindow + n, reads := ch.reads.set k (.credited n) }
  | .credited _ => none

/-- `adjustWindow`, the `send`. -/
def sendAdjust (ch : Channel) (k : Nat) : Option (Channel × List Message) := do
  match ← ch.reads[k]? with
  | .took _ => none
  | .credited n =>
    some ({ ch with reads := ch.reads.eraseIdx k }.send
      (.windowAdjust { channelID := ch.remoteId, additionalBytes := n }))

/-! ## Opening -/

/-- `Open`: the payload bound is set and the `OpenMessage` encoded. -/
def sendOpen (ch : Channel) (ok : Bool) : Option (Channel × List Message) :=
  if ch.opening = .registered then
    let ch := { ch with
      maxIncomingPayload := channelMaxPacket
      opening := if ok then .waiting else .returned }
    some (ch, [.openMsg {
      senderID := ch.localId, windowSize := ch.myWindow, maxPacketSize := ch.maxIncomingPayload }])
  else none

/-- `Open`: `m := <-ch.msg` and the switch over `m`. -/
def opened (ch : Channel) : Option Channel :=
  if ch.opening = .waiting then
    match ch.msg with
    | .openConfirm _ :: msg => some { ch with msg, opening := .returned, held := true }
    | _ :: msg => some { ch with msg, opening := .returned }
    | [] => if ch.msgClosed then some { ch with opening := .returned } else none
  else none

/-- The `OpenConfirmMessage` of `handleOpen`. -/
def confirmMessage (ch : Channel) : Message :=
  .openConfirm {
    channelID := ch.remoteId, senderID := ch.localId, windowSize := ch.myWindow,
    maxPacketSize := ch.maxIncomingPayload }

/-! ## Handling -/

/-- `remoteWin.add`. -/
def addWindow (ch : Channel) (n : UInt32) : Option Channel := do
  let win ← ch.remoteWin.add n
  some { ch with remoteWin := win, credit := ch.credit + n.toNat }

/-- `handleData`. -/
def handleData (ch : Channel) (m : DataMessage) : Except LoopError Channel :=
  if m.length > ch.maxIncomingPayload then .error .exceedsMaxPayload
  else if m.length ≠ UInt32.ofNat m.data.length then .error .wrongLength
  else if ch.myWindow < m.length then .error .wroteTooMuch
  else .ok { ch with myWindow := ch.myWindow - m.length, pending := ch.pending.write m.data }

/-- `handle` on the channel object `c`: the channel after the first stretch, and what
the loop goes on to do. -/
def handle (c : Nat) (ch : Channel) : Message → Except LoopError (Channel × List LoopOp)
  | .data m => do return (← ch.handleData m, [])
  | .close _ => .ok (ch, .reply c :: .remove ch.localId :: closeOps c)
  | .eof _ => .ok ({ ch with pending := ch.pending.eof }, [])
  | .windowAdjust m =>
    match ch.addWindow m.additionalBytes with
    | some ch => .ok (ch, [])
    | none => .error (.invalidWindowUpdate m.additionalBytes)
  | .openConfirm m =>
    if ch.direction = .inbound then .error .responseOnInbound
    else if m.maxPacketSize < minPacketLength ∨ m.maxPacketSize > maxPacketLength then
      .error (.invalidMaxPacketSize m.maxPacketSize)
    else
      let ch := { ch with remoteId := m.senderID, maxRemotePayload := m.maxPacketSize }
      -- the result of `add` is not looked at
      .ok ((ch.addWindow m.windowSize).getD ch, [.queue c (.openConfirm m)])
  | .openFailure m =>
    if ch.direction = .inbound then .error .responseOnInbound
    else .ok (ch, [.remove m.channelID, .queue c (.openFailure m)])
  | .openMsg _ => .error .invalidMessage

/-! ## The application's steps -/

/-- A step of a goroutine inside a call on the channel. `k` picks one of the calls in
progress; `ok` says whether the write of the encoded packet succeeds. -/
inductive Step where
  | sendOpen (ok : Bool)
  | opened
  | write (data : List UInt8)
  | reserve (k : Nat)
  | sendData (k : Nat) (ok : Bool)
  | read (n : Nat)
  | credit (k : Nat)
  | sendAdjust (k : Nat)
  | closeWrite
  | sendEOF
  | close
  deriving DecidableEq, Repr

/-- The channel after a step, and what was handed to the encoder. Calls other than the
creating `Open` need the channel to have been returned to the application. -/
def step (ch : Channel) : Step → Option (Channel × List Message)
  | .sendOpen ok => ch.sendOpen ok
  | .opened => do return (← ch.opened, [])
  | .write data => if ch.held then some (ch.Write data, []) else none
  | .reserve k => do return (← ch.reserve k, [])
  | .sendData k ok => ch.sendData k ok
  | .read n => if ch.held then do return (← ch.Read n, []) else none
  | .credit k => do return (← ch.adjustWindow k, [])
  | .sendAdjust k => ch.sendAdjust k
  | .closeWrite => if ch.held then some (ch.CloseWrite, []) else none
  | .sendEOF => ch.sendEOF
  | .close => if ch.held then some ch.Close else none

end Channel

end Qtalk.Mux
