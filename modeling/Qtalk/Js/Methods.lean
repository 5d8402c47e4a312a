import Qtalk.Js.Channel
import Qtalk.Js.Codec

/-!
# The methods of a channel

What `Channel` of `javascript/mux/channel.ts` does between two awaits. Code runs alone
until it awaits, so a method is a function of the channel to its new state, what it asks
of the session and of the promises (`Effect`), and what it throws. `Call` are all the ways
in which a method is entered or goes on.
-/

namespace Qtalk.Js

/-- What waits in a `ready` queue: the `shift` in `open`, or the one in `close`, of the call
with this promise. -/
inductive Waiter where
  | opening (p : Nat)
  | closing (p : Nat)
  deriving DecidableEq, Repr

/-- What goes on behind an await, once its promise is resolved. -/
inductive Task where
  /-- `open`, behind `enc.encode` -/
  | opened (p : Nat)
  /-- `open`, behind `ready.shift` -/
  | openReady (p : Nat) (v : Option Bool)
  /-- `close`, behind `send` -/
  | closeSent (p : Nat)
  /-- `close`, behind `ready.shift` -/
  | closeReady (p : Nat) (v : Option Bool)
  deriving DecidableEq, Repr

/-- The waiter goes on with the value it is given. -/
def Waiter.task (v : Option Bool) : Waiter → Task
  | .opening p => .openReady p v
  | .closing p => .closeReady p v

/-- How a promise is settled. -/
inductive Value where
  | undefined
  | bytes (bs : List UInt8)
  | channel
  | thrown (e : String)
  deriving DecidableEq, Repr

inductive Effect where
  /-- a message is written -/
  | encode (m : Message)
  /-- `session.rmCh` -/
  | rmCh (id : Nat)
  | settle (p : Nat) (v : Value)
  /-- an awaited promise is resolved -/
  | later (t : Task)
  deriving DecidableEq, Repr

abbrev Chan := Channel Waiter

/-- How a method is left. -/
structure Outcome where
  ch : Chan
  effects : List Effect
  error : Option String
  deriving DecidableEq, Repr

inductive Call where
  | read (p len : Nat)
  | write (buf : List UInt8)
  | closeWrite
  | close (p : Nat)
  | shutdown
  | handle (p : Nat) (m : Message)
  | resume (t : Task)
  deriving DecidableEq, Repr

def Message.isClose : Message → Bool
  | .close _ => true
  | _ => false

def Message.isOpen : Message → Bool
  | .openMsg .. => true
  | _ => false

/-- A promise of `read` that is resolved. -/
def ReadResult.settle (p : Nat) : ReadResult → List Effect
  | .pending => []
  | .undefined => [.settle p .undefined]
  | .data bs => [.settle p (.bytes bs)]

namespace Channel

/-- `read`. -/
def read (c : Chan) (p len : Nat) : Outcome :=
  let (res, ch) := c.tryRead p len
  { ch, effects := res.settle p, error := none }

/-- `send`. -/
def send (c : Chan) (m : Message) : Outcome :=
  if c.sentClose then { ch := c, effects := [], error := some "EOF" }
  else { ch := { c with sentClose := m.isClose }, effects := [.encode m], error := none }

/-- `write`; its rejection counts as thrown. -/
def write (c : Chan) (buf : List UInt8) : Outcome :=
  if c.sentEOF then { ch := c, effects := [], error := some "EOF" }
  else c.send (.data c.remoteId buf.length buf)

/-- `closeWrite`. -/
def closeWrite (c : Chan) : Outcome :=
  let c := { c with sentEOF := true }
  c.send (.eof c.remoteId)

/-- `shutdown`. Without `readBuf` every reader resolves with undefined; the array of readers
stays as it is. -/
def shutdown (c : Chan) : Outcome :=
  let (ready, waiters) := c.ready.close
  { ch := { c with readBuf := none, ready }
    effects := c.readers.map (fun reader => .settle reader.1 .undefined) ++
      waiters.map (fun waiter => .later (waiter.task none)) ++ [.rmCh c.localId]
    error := none }

/-- `close`, up to its first await. -/
def close (c : Chan) (p : Nat) : Outcome :=
  if c.sentClose then
    let out := c.shutdown
    { out with effects := out.effects ++ [.settle p .undefined] }
  else
    let out := c.send (.close c.remoteId)
    { out with effects := out.effects ++ [.later (.closeSent p)] }

/-- `await this.ready.shift()`. -/
def shift (c : Chan) (waiter : Waiter) : Outcome :=
  let (ready, v) := c.ready.shift waiter
  { ch := { c with ready }, effects := v.toList.map (fun v => .later (waiter.task v)), error := none }

/-- `this.ready.push(v)`. -/
def pushReady (c : Chan) (v : Bool) : Outcome :=
  match c.ready.push v with
  | none => { ch := c, effects := [], error := some "closed queue" }
  | some (ready, waiter) =>
    { ch := { c with ready }, effects := waiter.toList.map (fun w => .later (w.task (some v)))
      error := none }

/-- `open` and `close` behind an await. -/
def resume (c : Chan) : Task → Outcome
  | .opened p => c.shift (.opening p)
  | .openReady p v =>
    { ch := c, error := none
      effects := [.settle p (if v = some true then .channel else .thrown "failed to open")] }
  | .closeSent p => shift { c with sentClose := true } (.closing p)
  | .closeReady p none => { ch := c, effects := [.settle p .undefined], error := none }
  | .closeReady p (some _) => c.shift (.closing p)

def minPacketLength : Nat := 9

/-- `handle`; no number is above `maxPacketLength`. -/
def handle (c : Chan) (p : Nat) : Message → Outcome
  | .data _ length data =>
    match c.handleData length data with
    | .error e => { ch := c, effects := [], error := some e }
    | .ok (woken, ch) =>
      { ch, effects := woken.toList.flatMap (fun w => w.2.settle w.1), error := none }
  | .close _ => c.close p
  | .eof _ => { ch := { c with gotEOF := true }, effects := [], error := none }
  | .openFailure channelID =>
    let out := c.pushReady false
    { out with effects := .rmCh channelID :: out.effects }
  | .openConfirm _ senderID windowSize maxPacketSize =>
    if maxPacketSize < minPacketLength then
      { ch := c, effects := [], error := some "invalid max packet size" }
    else
      pushReady { c with remoteId := senderID, maxRemotePayload := maxPacketSize,
                         remoteWin := c.remoteWin + windowSize } true
  | .windowAdjust _ additionalBytes =>
    { ch := { c with remoteWin := c.remoteWin + additionalBytes }, effects := [], error := none }
  | .openMsg .. => { ch := c, effects := [], error := none }

/-- A method is entered, or goes on behind an await. -/
def enter (c : Chan) : Call → Outcome
  | .read p len => c.read p len
  | .write buf => c.write buf
  | .closeWrite => c.closeWrite
  | .close p => c.close p
  | .shutdown => c.shutdown
  | .handle p m => c.handle p m
  | .resume t => c.resume t

end Channel

end Qtalk.Js
