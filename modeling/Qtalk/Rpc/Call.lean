import Qtalk.Lib.Program
import Qtalk.Rpc.Dispatch
import Qtalk.Rpc.Frames

/-!
# Calls and responders

`caller.Call` of `golang/rpc/caller.go`, `Respond`, `responder.Return` and
`responder.Hijack` of `golang/rpc/responder.go`, and the frames of `golang/rpc/codec.go`
they go through, as programs over what a session and its channels offer. The inner codec
may fail on any value. `exchange_closes` and `Respond_closes` say which ways through them close
the channel.
-/

namespace Qtalk.Rpc.Peer
open Qtalk.Codec Qtalk.Lib Qtalk.Mux

/-- Why an operation of a session or a channel fails. -/
inductive SessionError where
  /-- `io.EOF` -/
  | eof
  /-- the error of the connection -/
  | conn
  /-- `qmux: channel closed early during open` -/
  | closedEarly
  /-- `qmux: channel open failed on remote side` -/
  | openFailed
  /-- `qmux: unexpected packet in response to channel open: %v` -/
  | unexpected
  deriving DecidableEq, Repr

/-- What a goroutine asks of its session; a channel is named by its object. -/
inductive Op where
  | Open
  | Write (ch : Nat) (data : List UInt8)
  | Read (ch : Nat) (n : Nat)
  | Close (ch : Nat)
  /-- the channel is returned to the application, whose other goroutines may use it -/
  | handOut (ch : Nat)
  deriving DecidableEq, Repr

/-- What comes back; an error that is nil is `none`. -/
abbrev Op.Answer : Op → Type
  | .Open => Except SessionError Nat
  | .Write _ _ => Option SessionError
  | .Read _ _ => Except SessionError (List UInt8)
  | .Close _ => Option SessionError
  | .handOut _ => Unit

/-- A goroutine's program. -/
abbrev Go (ρ : Type) : Type := Program Op Op.Answer ρ

def Open : Go (Except SessionError Nat) := .perform Op.Open
def Write (ch : Nat) (data : List UInt8) : Go (Option SessionError) := .perform (Op.Write ch data)
def Read (ch : Nat) (n : Nat) : Go (Except SessionError (List UInt8)) := .perform (Op.Read ch n)
def Close (ch : Nat) : Go (Option SessionError) := .perform (Op.Close ch)
def handOut (ch : Nat) : Go Unit := .perform (Op.handOut ch)

variable {α V E : Type}

/-- The inner codec at one type of values. -/
structure Format (V E : Type) where
  encode : V → Except E (List UInt8)
  decode : List UInt8 → Except E V

structure ResponseHeader (α : Type) where
  Error : Option (List α) := none
  Hijacked : Bool := false
  deriving DecidableEq, Repr

/-- The codec of a `Caller` or of a `RespondMux`, at the types they use. -/
structure Codecs (α V E : Type) where
  call : Format (Call α) E
  header : Format (ResponseHeader α) E
  /-- arguments and replies; `none` is nil -/
  value : Format (Option V) E
  /-- decoding into the throwaway buffer -/
  buffer : List UInt8 → Except E (List UInt8)
  /-- whether the error is `io.EOF` -/
  isEOF : E → Bool

/-- What `Call`, `Return` and `Hijack` fail with. -/
inductive CallError (α E : Type) where
  | session (e : SessionError)
  | codec (e : E)
  | remote (text : List α)
  deriving DecidableEq, Repr

/-- `frameEncoder.Encode`, on a channel. -/
def Encode (f : Format V E) (ch : Nat) (v : V) : Go (Option (CallError α E)) :=
  match f.encode v with
  | .error e => return some (.codec e)
  | .ok b => do return (← Write ch (frame b)).map .session

/-- `frameDecoder.Decode`, on a channel. -/
def Decode (decode : List UInt8 → Except E V) (ch : Nat) : Go (Except (CallError α E) V) := do
  match ← Read ch 4 with
  | .error e => return .error (.session e)
  | .ok bs =>
    let size := (beWord (fillBuffer 4 bs)).toNat
    match ← Read ch size with
    | .error e => return .error (.session e)
    | .ok bs => return (decode (fillBuffer size bs)).mapError .codec

/-! ## The caller -/

structure Response (α V : Type) where
  header : ResponseHeader α
  Reply : Option V
  Channel : Nat
  deriving DecidableEq, Repr

/-- `errors.Is(err, io.EOF)`. -/
def isEOF (c : Codecs α V E) : CallError α E → Bool
  | .session e => e = .eof
  | .codec e => c.isEOF e
  | .remote _ => false

variable [DecidableEq α] [Text α]

/-- `caller.Call`, behind the decoding of the header; `reply` says whether the caller gave
a place for the reply. -/
def caller.response (c : Codecs α V E) (ch : Nat) (header : ResponseHeader α) (reply : Bool) :
    Go (Option (Response α V) × Option (CallError α E)) :=
  let resp : Response α V := { header, Reply := none, Channel := ch }
  match header.Error with
  | some e => return (some resp, some (.remote (Text.literal "remote: " ++ e)))
  | none =>
    if reply then do
      match ← Decode c.value.decode ch with
      | .error e => return (some resp, some e)
      | .ok v => return (some { resp with Reply := v }, none)
    else do
      match ← Decode c.buffer ch with
      | .error e => return (some resp, if isEOF c e then none else some e)
      | .ok _ => return (some resp, none)

/-- `caller.Call`, behind `Open`. -/
def caller.exchange (c : Codecs α V E) (path : List α) (args : Option V) (reply : Bool) (ch : Nat) :
    Go (Option (Response α V) × Option (CallError α E)) := do
  -- request
  match ← Encode c.call ch { Destination := path, ObjectPath := [], Method := [] } with
  | some e => do
    let _ ← Close ch
    return (none, some e)
  | none =>
    match ← Encode c.value ch args with
    | some e => do
      let _ ← Close ch
      return (none, some e)
    | none =>
      -- response
      match ← Decode c.header.decode ch with
      | .error e => do
        let _ ← Close ch
        return (none, some e)
      | .ok header =>
        if header.Hijacked then caller.response c ch header reply
        else .deferring (Close ch) (caller.response c ch header reply)

/-- `caller.Call`. -/
def caller.Call (c : Codecs α V E) (path : List α) (args : Option V) (reply : Bool) :
    Go (Option (Response α V) × Option (CallError α E)) := do
  match ← Open with
  | .error e => return (none, some (.session e))
  | .ok ch => caller.exchange c path args reply ch

/-! ## The responder -/

/-- What a handler returns or hijacks with: a value, or an error by its text. -/
abbrev Result (α V : Type) := Except (List α) (Option V)

/-- The start of `Return` and `Hijack`: an error goes into the header. -/
def responder.take : Result α V → StateT (ResponseHeader α) Go (Option V)
  | .error e => do
    modify fun h => { h with Error := some e }
    return none
  | .ok v => return v

/-- `responder.Return`. The state is the header of the responder. -/
def responder.Return (c : Codecs α V E) (ch : Nat) (v : Result α V) :
    StateT (ResponseHeader α) Go (Option (CallError α E)) := do
  let v ← responder.take v
  match ← Encode c.header ch (← get) with
  | some e => return some e
  | none =>
    match ← Encode c.value ch v with
    | some e => return some e
    | none => return (← Close ch).map .session

/-- `responder.Hijack`. -/
def responder.Hijack (c : Codecs α V E) (ch : Nat) (v : Result α V) :
    StateT (ResponseHeader α) Go (Except (CallError α E) Nat) := do
  let v ← responder.take v
  modify fun h => { h with Hijacked := true }
  match ← Encode c.header ch (← get) with
  | some e => return .error e
  | none =>
    match ← Encode c.value ch v with
    | some e => return .error e
    | none => do
      handOut ch
      return .ok ch

/-- `RespondRPC` of a handler, given the call and the channel its responder works on. -/
abbrev Handler (α : Type) := Call α → Nat → StateT (ResponseHeader α) Go Unit

/-- `Respond`, behind the deferred `Close`; `order` are the entries of the handler map, as
the lookup meets them. -/
def Respond.body (c : Codecs α V E) (order : List (List α × Handler α)) (ch : Nat) : Go Unit := do
  let call : Except (CallError α E) (Call α) ← Decode c.call.decode ch
  match call with
  | .error _ => return
  | .ok call =>
    match Rpc.Respond order call with
    | .rejected _ => return
    | .missing text => do
      let _ ← (responder.Return c ch (.error text)).run {}
    | .answered handler call => do
      let _ ← (handler call ch).run {}

/-- `Respond`. -/
def Respond (c : Codecs α V E) (order : List (List α × Handler α)) (ch : Nat) : Go Unit :=
  .deferring (Close ch) (Respond.body c order ch)

/-! ## Which ways close the channel -/

theorem Close_passes (ch : Nat) {ρ : Type} (a : ρ) (Q : ρ → Prop) :
    Program.Passes (· = .Close ch) Q (Close ch >>= fun _ => pure a) := by
  left
  rfl

/-- The response that `Call` leaves with a channel that is open. -/
def LeftOpen (ch : Nat) (r : Option (Response α V) × Option (CallError α E)) : Prop :=
  ∃ resp, r.1 = some resp ∧ resp.header.Hijacked = true ∧ resp.Channel = ch

omit [DecidableEq α] in
theorem response_hijacked (c : Codecs α V E) (ch : Nat) (header : ResponseHeader α) (reply : Bool)
    (hh : header.Hijacked = true) :
    (caller.response c ch header reply).Passes (· = .Close ch) (LeftOpen ch) := by
  unfold caller.response
  dsimp only
  split
  · exact ⟨_, rfl, hh, rfl⟩
  · split
    · apply (Program.passes_any _).bind
      intro a _
      split
      · exact ⟨_, rfl, hh, rfl⟩
      · exact ⟨_, rfl, hh, rfl⟩
    · apply (Program.passes_any _).bind
      intro a _
      split
      · exact ⟨_, rfl, hh, rfl⟩
      · exact ⟨_, rfl, hh, rfl⟩

omit [DecidableEq α] in
/-- `Call` closes the channel it has opened, unless it returns a hijacked response. -/
theorem exchange_closes (c : Codecs α V E) (path : List α) (args : Option V) (reply : Bool)
    (ch : Nat) :
    (caller.exchange c path args reply ch).Passes (· = .Close ch) (LeftOpen ch) := by
  unfold caller.exchange
  apply (Program.passes_any _).bind
  intro sent _
  split
  · exact Close_passes ch _ _
  · apply (Program.passes_any _).bind
    intro sent _
    split
    · exact Close_passes ch _ _
    · apply (Program.passes_any _).bind
      intro header _
      split
      · exact Close_passes ch _ _
      · next header =>
        by_cases hh : header.Hijacked = true
        · rw [if_pos hh]
          exact response_hijacked c ch header reply hh
        · rw [if_neg hh]
          exact Program.deferring_passes _ (Or.inl rfl)

/-- Whatever the handler does, `Respond` closes the channel. -/
theorem Respond_closes (c : Codecs α V E) (order : List (List α × Handler α)) (ch : Nat) :
    (Respond c order ch).Passes (· = .Close ch) fun _ => False := by
  unfold Respond
  exact Program.deferring_passes _ (Or.inl rfl)

/-- It does not touch the channel before it has read from it. -/
theorem Respond_reads (c : Codecs α V E) (order : List (List α × Handler α)) (ch : Nat) :
    (Respond c order ch).First fun o => ∃ n, 0 < n ∧ o = .Read ch n := by
  have first : (Respond.body c order ch).First fun o => ∃ n, 0 < n ∧ o = .Read ch n := by
    unfold Respond.body
    apply Program.First.bind
    exact ⟨4, by decide, rfl⟩
  exact first.bind _

end Qtalk.Rpc.Peer
