import Qtalk.Js.Methods
import Qtalk.Lib.Runs

/-!
# The session

`Session` of `javascript/mux/session.ts` under its application. The state holds every
channel object ever made, also those no longer in the table `channels`. A step is what runs
between two awaits: a call of the application, the loop with the next result of `decode`,
or a task whose promise is resolved; which one comes next is open. `log` records what is
written and what the loop gives to a channel, each with the channel it is about.
-/

namespace Qtalk.Js
open Qtalk.Lib

inductive Loop where
  | running
  | returned
  | threw
  deriving DecidableEq, Repr

inductive Entry where
  | sent (m : Message)
  | got (m : Message)
  deriving DecidableEq, Repr

/-- `Session`. A deleted slot of `channels` is `none`; a waiter of `incoming` is the promise
of an `accept`; `calls` counts the promises given out; `closed` tells that `conn.close` was
called. -/
structure Session where
  chans : List Chan
  channels : List (Option Nat)
  incoming : Queue Nat Nat
  loop : Loop
  closed : Bool
  tasks : List (Nat × Task)
  settled : List (Option Nat × Nat × Value)
  calls : Nat
  log : List (Option Nat × Entry)
  deriving DecidableEq, Repr

inductive Act where
  /-- `session.open()` -/
  | openChannel
  | accept
  | closeSession
  | read (o len : Nat)
  | write (o : Nat) (buf : List UInt8)
  | closeWrite (o : Nat)
  | close (o : Nat)
  /-- the `i`-th task goes on -/
  | resume (i : Nat)
  /-- `dec.decode()` comes to its result -/
  | decoded (res : Except DecodeError Message)
  deriving Repr

/-- The channel that a message is for; an OpenMessage has none. -/
def Message.channelID : Message → Nat
  | .openMsg .. => 0
  | .openConfirm channelID _ _ _ => channelID
  | .openFailure channelID => channelID
  | .windowAdjust channelID _ => channelID
  | .data channelID _ _ => channelID
  | .eof channelID => channelID
  | .close channelID => channelID

/-- What entering a channel by a call adds to the log by itself. -/
def Call.entries : Call → List Entry
  | .handle _ m => [.got m]
  | _ => []

namespace Session

/-- The constructor; the loop awaits its first message. -/
def new : Session :=
  { chans := [], channels := [], incoming := .new, loop := .running, closed := false, tasks := []
    settled := [], calls := 0, log := [] }

/-- One effect of a method of channel `o`. -/
def perform (o : Nat) (s : Session) : Effect → Session
  | .encode m => { s with log := s.log ++ [(some o, .sent m)] }
  | .rmCh id => { s with channels := s.channels.set id none }
  | .settle p v => { s with settled := s.settled ++ [(some o, p, v)] }
  | .later t => { s with tasks := s.tasks ++ [(o, t)] }

/-- A method of channel `o` runs up to an await or its end. -/
def enter (s : Session) (o : Nat) (call : Call) : Session × Option String :=
  match s.chans[o]? with
  | none => (s, none)
  | some c =>
    let out := c.enter call
    let s := { s with chans := s.chans.set o out.ch
                      log := s.log ++ call.entries.map (fun e => (some o, e)) }
    (out.effects.foldl (perform o) s, out.error)

/-- A promise for a call of the application. -/
def promise (s : Session) : Session := { s with calls := s.calls + 1 }

/-- `newChannel`, without the assignments its callers add. -/
def newChannel (s : Session) : Chan :=
  { Channel.new with
    remoteWin := 0, myWindow := channelWindowSize, readBuf := some [], localId := s.channels.length }

/-- `addCh`. `forEach` passes over the slots that `delete` leaves, so its body finds no
undefined one, and the channel is pushed. -/
def addCh (s : Session) (ch : Chan) : Session :=
  { s with chans := s.chans ++ [ch], channels := s.channels ++ [some s.chans.length] }

/-- `getCh`; where the slot is empty the loop fails on `ch.localId`. -/
def getCh (s : Session) (id : Nat) : Option Nat := s.channels[id]?.join

/-- The channel of an `open`. -/
def outbound (s : Session) : Chan := { s.newChannel with maxIncomingPayload := channelMaxPacket }

/-- `open`, up to its first await. -/
def openChannel (s : Session) : Session :=
  let o := s.chans.length
  let ch := s.outbound
  { s.addCh ch with
    log := s.log ++ [(some o, .sent (.openMsg ch.localId ch.myWindow ch.maxIncomingPayload))]
    tasks := s.tasks ++ [(o, .opened s.calls)]
    calls := s.calls + 1 }

/-- `accept`. -/
def accept (s : Session) : Session :=
  match s.incoming.shift s.calls with
  | (incoming, none) => { s with incoming, calls := s.calls + 1 }
  | (incoming, some none) =>
    { s with incoming, calls := s.calls + 1, settled := s.settled ++ [(none, s.calls, .undefined)] }
  | (incoming, some (some o)) =>
    { s with incoming, calls := s.calls + 1, settled := s.settled ++ [(some o, s.calls, .channel)] }

/-- The loop of `close` over the ids in the table. -/
def shutdownAll (s : Session) : List Nat → Session
  | [] => s
  | id :: ids =>
    match s.getCh id with
    | none => s.shutdownAll ids
    | some o => (s.enter o .shutdown).1.shutdownAll ids

/-- `close`. -/
def close (s : Session) : Session :=
  { s.shutdownAll (List.range s.channels.length) with closed := true }

/-- The channel that `handleOpen` makes. -/
def inbound (s : Session) (senderID windowSize maxPacketSize : Nat) : Chan :=
  { s.newChannel with
    remoteId := senderID, maxRemotePayload := maxPacketSize, remoteWin := windowSize
    maxIncomingPayload := channelMaxPacket }

/-- `handleOpen`. The push comes before the confirmation, but no code runs in between. -/
def handleOpen (s : Session) (senderID windowSize maxPacketSize : Nat) : Session :=
  if maxPacketSize < Channel.minPacketLength then
    { s with log := s.log ++ [(none, .sent (.openFailure senderID))] }
  else
    let o := s.chans.length
    let ch := s.inbound senderID windowSize maxPacketSize
    let s' := s.addCh ch
    match s.incoming.push o with
    | none => { s' with loop := .threw }
    | some (incoming, waiter) =>
      { s' with
        incoming
        settled := s.settled ++ waiter.toList.map (fun p => (some o, p, .channel))
        log := s.log ++
          [(some o, .got (.openMsg senderID windowSize maxPacketSize)),
           (some o, .sent (.openConfirm ch.remoteId ch.localId ch.myWindow ch.maxIncomingPayload))] }

/-- `loop`, from one await of `decode` to the next. -/
def loopStep (s : Session) : Except DecodeError Message → Session
  | .error .ended => { s.close with loop := .returned }
  | .error _ => { s with loop := .threw }
  | .ok (.openMsg senderID windowSize maxPacketSize) => s.handleOpen senderID windowSize maxPacketSize
  | .ok m =>
    match s.getCh m.channelID with
    | none => { s with loop := .threw }
    | some o =>
      match s.promise.enter o (.handle s.calls m) with
      | (s, none) => s
      | (s, some _) => { s with loop := .threw }

/-- A call of the application on a channel it could have. -/
def callOn (s : Session) (o : Nat) (call : Call) : Option Session :=
  if o < s.chans.length then some (s.promise.enter o call).1 else none

def step (s : Session) : Act → Option Session
  | .openChannel => some s.openChannel
  | .accept => some s.accept
  | .closeSession => some s.close
  | .read o len => s.callOn o (.read s.calls len)
  | .write o buf => s.callOn o (.write buf)
  | .closeWrite o => s.callOn o .closeWrite
  | .close o => s.callOn o (.close s.calls)
  | .resume i =>
    match s.tasks[i]? with
    | none => none
    | some (o, t) => some ({ s with tasks := s.tasks.eraseIdx i }.enter o (.resume t)).1
  | .decoded res =>
    if s.loop = .running ∧ res ≠ .error .waiting then some (s.loopStep res) else none

end Session

end Qtalk.Js
