import Mathlib.Algebra.BigOperators.Group.List.Basic
import Mathlib.Algebra.Order.Ring.Nat
import Qtalk.Mux.Channel

/-!
# One session

`session` of `golang/mux/session.go`: the channel objects, the channel list, the queue of
incoming channels and the session loop. The loop's work on a packet is `onePacket`, up to
the first point where another goroutine can get in; the rest of it waits in `ops` and is
done one operation a step. The loop leaves with an error by way of `exitOps`.

`step` is the session under any schedule of goroutines and any input. It is defined
while the process lives: an operation that panics records its fault.
-/

namespace Qtalk.Mux
open Qtalk.Codec

/-- A run-time panic in the session loop. -/
inductive Fault where
  | outOfRange
  | typeAssertion
  | closeOfClosed
  | sendOnClosed
  deriving DecidableEq, Repr

/-- A message in the hands of the encoder, and the channel object it was sent for. -/
structure Packet where
  src : Option Nat
  msg : Message
  deriving DecidableEq, Repr

structure Session where
  /-- the channel objects; those below `fresh` exist -/
  heap : Nat → Channel
  fresh : Nat
  chanList : ChanList Nat
  incoming : List Nat
  /-- what the loop has yet to do before it reads the next packet, or ends -/
  ops : List LoopOp
  /-- `err == nil` in `loop` -/
  running : Bool
  connClosed : Bool
  /-- `closeCh` holds its value -/
  closeCh : Bool
  err : Option LoopError
  fault : Option Fault

/-- `NewSession`. -/
def newSession : Session where
  heap _ := { direction := .inbound }
  fresh := 0
  chanList := []
  incoming := []
  ops := []
  running := true
  connClosed := false
  closeCh := false
  err := none
  fault := none

/-- What is left to do when the loop has an error. -/
def exitOps (e : LoopError) : List LoopOp := [.dropAll, .connClose, .signal, .setErr e]

namespace Session

/-- Overwrite a channel object. -/
def put (s : Session) (c : Nat) (ch : Channel) : Session :=
  { s with heap := Function.update s.heap c ch }

/-- Overwrite a channel object and hand messages for it to the encoder. -/
def emit (s : Session) (c : Nat) (r : Channel × List Message) : Session × List Packet :=
  (s.put c { r.1 with sent := r.1.sent ++ r.2 }, r.2.map fun m => ⟨some c, m⟩)

/-- The loop ends with an error. -/
def exit (s : Session) (e : LoopError) : Session :=
  { s with running := false, ops := exitOps e }

/-- The part of `newChannel` that the callers share: `chanList.add` and the assignment of
`localId`, for a channel otherwise given by `mk`. Ids are 32 bits wide, so a list of 2^32
slots is out of scope. -/
def newChannel (s : Session) (mk : UInt32 → Channel) : Option Session :=
  if s.chanList.length + 1 < 2 ^ 32 then
    let (chanList, id) := s.chanList.add s.fresh
    some { s.put s.fresh (mk id) with chanList, fresh := s.fresh + 1 }
  else none

/-- The channel `Open` registers. -/
def outboundChannel (id : UInt32) : Channel :=
  { direction := .outbound, localId := id, opening := .registered }

/-- The channel `handleOpen` registers; the first message it has handled is the
`OpenMessage`. -/
def inboundChannel (m : OpenMessage) (id : UInt32) : Channel :=
  { direction := .inbound, localId := id, remoteId := m.senderID,
    maxRemotePayload := m.maxPacketSize, maxIncomingPayload := channelMaxPacket,
    remoteWin := (Window.add {} m.windowSize).getD {}, handled := [.openMsg m],
    credit := m.windowSize.toNat }

/-- `handleOpen`. -/
def handleOpen (s : Session) (m : OpenMessage) : Option Session :=
  if m.maxPacketSize < minPacketLength ∨ m.maxPacketSize > maxPacketLength then
    some { s with ops := [.reject m.senderID] }
  else do
    let s' ← s.newChannel (inboundChannel m)
    some { s' with ops := [.publish s.fresh, .confirm s.fresh] }

/-- `handle` on the channel object `c`. -/
def handle (s : Session) (c : Nat) (m : Message) : Session :=
  match (s.heap c).handle c m with
  | .error e => s.exit e
  | .ok (ch, ops) => { s.put c { ch with handled := ch.handled ++ [m] } with ops }

/-- `onePacket`, on the result of `Decode`. -/
def onePacket (s : Session) : Except DecodeError Message → Option Session
  | .error .outOfRange => some { s with fault := some .outOfRange }
  | .error e => some (s.exit (.decode e))
  | .ok m =>
    let (id, isChan) := m.channel
    if isChan then
      match s.chanList.getChan id with
      | none => some (s.exit (.invalidChannel id))
      | some c => some (s.handle c m)
    else
      match m with
      | .openMsg m => s.handleOpen m
      | _ => some { s with fault := some .typeAssertion }

/-- One operation of the loop; `none` where it waits. `ok` says whether the write of an
encoded packet succeeds; `send` in `handle` does not look at that. -/
def runOp (s : Session) (ok : Bool) : LoopOp → Option (Session × List Packet)
  | .publish c =>
    if s.incoming.length < chanSize then some ({ s with incoming := s.incoming ++ [c] }, [])
    else none
  | .confirm c =>
    let (s, out) := s.emit c (s.heap c, [(s.heap c).confirmMessage])
    some (if ok then s else s.exit .encode, out)
  | .reject id =>
    some (if ok then s else s.exit .encode, [⟨none, .openFailure { channelID := id }⟩])
  | .queue c m =>
    let ch := s.heap c
    if ch.msgClosed then some ({ s with fault := some .sendOnClosed }, [])
    else if ch.msg.length < chanSize then some (s.put c { ch with msg := ch.msg ++ [m] }, [])
    else none
  | .reply c => some (s.emit c (s.heap c).Close)
  | .remove id => some ({ s with chanList := s.chanList.remove id }, [])
  | .eof c => some (s.put c { s.heap c with pending := (s.heap c).pending.eof }, [])
  | .closeMsg c =>
    if (s.heap c).msgClosed then some ({ s with fault := some .closeOfClosed }, [])
    else some (s.put c { s.heap c with msgClosed := true }, [])
  | .markClosed c => some (s.put c { s.heap c with sentClose := true }, [])
  | .closeWin c => some (s.put c { s.heap c with remoteWin := (s.heap c).remoteWin.close }, [])
  | .dropAll =>
    some ({ s with chanList := [], ops := s.chanList.dropAll.flatMap closeOps ++ s.ops }, [])
  | .connClose => some ({ s with connClosed := true }, [])
  | .signal => some ({ s with closeCh := true }, [])
  | .setErr e => some ({ s with err := some e }, [])

/-- The loop takes its next operation. -/
def loopStep (s : Session) (ok : Bool) : Option (Session × List Packet) :=
  match s.ops with
  | [] => none
  | op :: ops => { s with ops }.runOp ok op

/-- A step of one of the goroutines. -/
inductive Act where
  /-- `Open`, up to the registration of the channel -/
  | register
  /-- a goroutine inside a call on a channel -/
  | call (c : Nat) (a : Channel.Step)
  /-- `Accept` returns a channel -/
  | accept
  /-- `Accept` returns `io.EOF` -/
  | acceptEOF
  /-- `Close` -/
  | close
  /-- the loop's `Decode` has returned -/
  | recv (r : Except DecodeError Message)
  /-- the loop goes on -/
  | loop (ok : Bool)

/-- What `Decode` can return: the size of `Data` comes from 32 bits. -/
def Decoded : Except DecodeError Message → Prop
  | .ok (.data m) => m.data.length < 2 ^ 32
  | _ => True

instance (r : Except DecodeError Message) : Decidable (Decoded r) := by
  unfold Decoded; split <;> infer_instance

/-- Whether a step claims the success of a write. -/
def Act.writes : Act → Bool
  | .call _ (.sendOpen ok) => ok
  | .call _ (.sendData _ ok) => ok
  | .loop ok => ok
  | _ => false

/-- The session after a step and what was handed to the encoder. Nothing happens after a
fault, and no write succeeds on a closed connection. -/
def step (s : Session) (a : Act) : Option (Session × List Packet) :=
  if s.fault.isSome || (a.writes && s.connClosed) then none
  else
    match a with
    | .register => do return (← s.newChannel outboundChannel, [])
    | .call c a =>
      if c < s.fresh then do
        let r ← (s.heap c).step a
        return s.emit c r
      else none
    | .accept =>
      match s.incoming with
      | [] => none
      | c :: incoming => some ({ s.put c { s.heap c with held := true } with incoming }, [])
    | .acceptEOF => if s.closeCh then some ({ s with closeCh := false }, []) else none
    | .close => some ({ s with connClosed := true }, [])
    | .recv r =>
      if s.running = true ∧ s.ops = [] ∧ Decoded r then do return (← s.onePacket r, [])
      else none
    | .loop ok => s.loopStep ok

/-- The state part of `step`. -/
def next (s : Session) (a : Act) : Option Session := (s.step a).map Prod.fst

end Session

end Qtalk.Mux
